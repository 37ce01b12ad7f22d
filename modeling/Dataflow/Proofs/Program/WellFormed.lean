import Dataflow.Proofs.Program.Steps

/-!
# Executions on well-formed values

If what is supplied to an execution is well formed and its operations keep values so, then all that
it computes is well formed. `Execution.Sound` is the invariant; one step preserves it, whatever comes
of the step, and what a step shows is well formed as long as it holds.
-/

namespace Dataflow

/-- The operation computes well-formed values from well-formed ones, and shows such to
calibration. -/
structure Operation.KeepsWellFormed (o : Operation) : Prop where
  forward : ∀ {inputs v}, (∀ x ∈ inputs, x.WellFormed) → o.forward inputs = .ok v → v.WellFormed
  calibration : ∀ {inputs v}, (∀ x ∈ inputs, x.WellFormed) →
    o.calibration inputs = .ok (some v) → v.WellFormed

def Step.WellFormed (s : Step) : Prop := s.output.WellFormed ∧ s.view.WellFormed

namespace Execution

/-- Everything that the execution will read is well formed, as far as it is there. -/
structure Sound (e : Execution) : Prop where
  params : ∀ x ∈ e.program.params.entries, x.2.WellFormed
  fed : ∀ x ∈ e.feed.entries, x.2.WellFormed
  computed : ∀ x ∈ e.store, x.2.WellFormed
  pending : ∀ o ∈ e.pending, o.KeepsWellFormed

variable {e : Execution} {o : Operation} {inputs : List Value} {output v : Value}

theorem Sound.resolve (h : e.Sound) {i : String}
    (hv : e.program.resolve e.feed e.store o i = .ok v) : v.WellFormed := by
  unfold Program.resolve at hv
  split at hv
  · next w hw =>
    cases hv
    exact h.computed _ (Dict.mem_of_lookup_eq_some hw)
  · split at hv
    · next t ht =>
      cases hv
      exact h.params _ (Dict.mem_of_lookup_eq_some ht)
    · split at hv
      · next t ht =>
        cases hv
        exact h.fed _ (Dict.mem_of_lookup_eq_some ht)
      · cases hv

theorem Sound.execute (h : e.Sound) (ho : o.KeepsWellFormed)
    (hx : e.program.execute e.feed e.store o = .ok (inputs, output)) :
    (∀ x ∈ inputs, x.WellFormed) ∧ output.WellFormed := by
  obtain ⟨hi, hf⟩ := Program.execute_eq_ok.1 hx
  have hin : ∀ x ∈ inputs, x.WellFormed := by
    intro x hmem
    obtain ⟨i, -, hr⟩ := Outcome.exists_left_of_mem (Outcome.mapM_eq_ok.1 hi) hmem
    exact h.resolve hr
  exact ⟨hin, ho.forward hin hf⟩

theorem wellFormed_view (ho : o.KeepsWellFormed) (hi : ∀ x ∈ inputs, x.WellFormed)
    (hout : output.WellFormed) (hv : view o inputs output = .ok v) : v.WellFormed := by
  unfold view at hv
  split at hv
  · obtain ⟨view?, hc, hv⟩ := Outcome.bind_eq_ok.1 hv
    have hc := Outcome.mapError_eq_ok.1 hc
    cases view? with
    | none =>
        cases hv
        exact hout
    | some w =>
        cases hv
        exact ho.calibration hi hc
  · cases hv
    exact hout

theorem Sound.after (h : e.Sound) {e' : Execution} (hp : e'.program = e.program)
    (hf : e'.feed = e.feed) (hs : ∀ x ∈ e'.store, x.2.WellFormed)
    (hsub : e'.pending ⊆ e.pending) : e'.Sound where
  params := hp ▸ h.params
  fed := hf ▸ h.fed
  computed := hs
  pending o ho := h.pending o (hsub ho)

/-- The next answer is well formed if it is a step, and the execution stays sound. -/
theorem Sound.next (h : e.Sound) :
    e.next.2.Sound ∧ ∀ s, e.next.1 = some (.ok s) → s.WellFormed := by
  obtain ⟨p, feed, stop, pending, index, store⟩ := e
  cases pending with
  | nil => exact ⟨h, nofun⟩
  | cons o os =>
      have hsub : os ⊆ o :: os := List.subset_cons_self o os
      have hstop : (if stop = some o.name then [] else os) ⊆ o :: os := by
        split
        · exact List.nil_subset _
        · exact hsub
      cases hx : p.execute feed store o with
      | error e =>
          cases e with
          | error cause =>
              rw [Program.next_of_error hx]
              exact ⟨h.after rfl rfl h.computed (List.nil_subset _), nofun⟩
          | fault fault =>
              rw [Program.next_of_fault hx]
              exact ⟨h.after rfl rfl h.computed hsub, nofun⟩
      | ok x =>
          obtain ⟨inputs, output⟩ := x
          have ho := h.pending o List.mem_cons_self
          obtain ⟨hin, hout⟩ := h.execute ho hx
          -- the value is kept even if its view fails
          have hstore : ∀ x ∈ (o.name, output) :: store, x.2.WellFormed :=
            List.forall_mem_cons.2 ⟨hout, h.computed⟩
          cases hv : view o inputs output with
          | ok v =>
              rw [Program.next_of_ok hx hv]
              refine ⟨h.after rfl rfl hstore hstop, fun s hs => ?_⟩
              cases hs
              exact ⟨hout, wellFormed_view ho hin hout hv⟩
          | error e =>
              cases e with
              | error cause =>
                  rw [Program.next_of_view_error hx hv]
                  exact ⟨h.after rfl rfl hstore (List.nil_subset _), nofun⟩
              | fault fault =>
                  rw [Program.next_of_view_fault hx hv]
                  exact ⟨h.after rfl rfl hstore hstop, nofun⟩

theorem Sound.take (h : e.Sound) (k : Nat) {s : Step} (hs : some (.ok s) ∈ e.take k) :
    s.WellFormed := by
  induction k generalizing e with
  | zero => cases hs
  | succ k ih =>
      rcases List.mem_cons.1 hs with hs | hs
      · exact h.next.2 s hs.symm
      · exact ih h.next.1 hs

theorem sound_start {p : Program} {feed : Dict Tensor}
    (hp : ∀ x ∈ p.params.entries, x.2.WellFormed) (hf : ∀ x ∈ feed.entries, x.2.WellFormed)
    (ho : ∀ o ∈ p.operations, o.KeepsWellFormed) (stop : Option String) :
    (start p feed stop).Sound where
  params := hp
  fed := hf
  computed := nofun
  pending := ho

end Execution

end Dataflow
