import Dataflow.Device
import Dataflow.Proofs.Dict

/-!
# Histories of a registry

What the registry answers after any sequence of calls. The tables it then holds are those of all
publications, the later ones in place of the earlier ones of the same name, where the contributions
of the backend count as published at the first question.

A device that the backend contributes to may therefore lose the table that was published for it: a
table published before the first question gives way to the backend's own, although no publication
came after it. In all other cases the last publication counts, and which devices are known does not
depend on this.
-/

namespace Dataflow.Registry

variable {r : Registry} {calls past future : List Call} {device : String}

/-! ## Histories -/

def Call.publications : Call → List (String × DispatchTable)
  | .publish device table => [(device, table)]
  | .publishBackend => Cpu.contribution
  | .lookup _ | .contains _ | .devices => []

def Call.isQuestion : Call → Bool
  | .publish .. | .publishBackend => false
  | .lookup _ | .contains _ | .devices => true

def after (r : Registry) (calls : List Call) : Registry :=
  calls.foldl (fun r c => (r.respond c).2) r

def latest? (calls : List Call) (device : String) : Option DispatchTable :=
  (calls.flatMap Call.publications).reverse.lookup device

def contributed? (device : String) : Option DispatchTable :=
  if device ∈ Cpu.devices then some Cpu.table else none

/-- The last publication for a device counts, and without one the contribution of the backend. -/
def expected? (calls : List Call) (device : String) : Option DispatchTable :=
  (latest? calls device).or (contributed? device)

def early (calls : List Call) : List Call := calls.takeWhile (!·.isQuestion)

def late (calls : List Call) : List Call := calls.dropWhile (!·.isQuestion)

/-- A table of its own was published for a device of the backend, and this was before the first
question. -/
def Overridden (calls : List Call) (device : String) : Prop :=
  device ∈ Cpu.devices ∧ latest? (late calls) device = none ∧
    ∃ table, latest? calls device = some table ∧ table ≠ Cpu.table

theorem respond_snd (r : Registry) (c : Call) :
    (r.respond c).2 = if c.isQuestion then r.asked else r.publishAll c.publications := by
  cases c <;> rfl

theorem after_cons (r : Registry) (c : Call) (calls : List Call) :
    r.after (c :: calls) = (r.respond c).2.after calls := rfl

theorem after_append (r : Registry) (past future : List Call) :
    r.after (past ++ future) = (r.after past).after future := by
  unfold after
  rw [List.foldl_append]

/-- A call is answered by the registry that the calls before it leave. -/
theorem getElem?_answers (r : Registry) (past : List Call) (c : Call) (future : List Call) :
    (r.answers (past ++ c :: future))[past.length]? = some ((r.after past).respond c).1 := by
  induction past generalizing r with
  | nil => rfl
  | cons c' past ih => exact ih (r.respond c').2

/-! ## Tables -/

theorem publishAll_append (r : Registry) (ts us : List (String × DispatchTable)) :
    r.publishAll (ts ++ us) = (r.publishAll ts).publishAll us := by
  unfold publishAll
  rw [List.foldl_append]

theorem waiting_publishAll (r : Registry) (ts : List (String × DispatchTable)) :
    (r.publishAll ts).waiting = r.waiting := by
  induction ts generalizing r with
  | nil => rfl
  | cons e ts ih => exact ih (r.publish e.1 e.2)

theorem tables_publishAll (r : Registry) (ts : List (String × DispatchTable)) :
    (r.publishAll ts).tables = ts.foldl (fun d e => d.insert e.1 e.2) r.tables := by
  induction ts generalizing r with
  | nil => rfl
  | cons e ts ih => exact ih (r.publish e.1 e.2)

theorem asked_of_waiting (h : r.waiting = []) : r.asked = r := by
  unfold asked
  rw [h]
  exact congrArg (Registry.mk r.tables) h.symm

theorem publications_of_isQuestion {c : Call} (h : c.isQuestion = true) : c.publications = [] := by
  cases c with
  | publish => cases h
  | publishBackend => cases h
  | _ => rfl

/-- Where nothing waits, or nothing is asked, calls only publish. -/
theorem after_eq_publishAll (h : r.waiting = [] ∨ ∀ c ∈ calls, c.isQuestion = false) :
    r.after calls = r.publishAll (calls.flatMap Call.publications) := by
  induction calls generalizing r with
  | nil => rfl
  | cons c calls ih =>
      rw [after_cons, List.flatMap_cons, publishAll_append, respond_snd]
      cases hc : c.isQuestion with
      | false =>
          rw [if_neg Bool.false_ne_true]
          apply ih
          rw [waiting_publishAll]
          exact h.imp_right fun hall c hm => hall c (List.mem_cons_of_mem _ hm)
      | true =>
          have hw : r.waiting = [] := by
            rcases h with h | hall
            · exact h
            · rw [hall c List.mem_cons_self] at hc
              cases hc
          rw [if_pos rfl, asked_of_waiting hw, publications_of_isQuestion hc]
          exact ih (Or.inl hw)

theorem early_append_late (calls : List Call) : early calls ++ late calls = calls :=
  List.takeWhile_append_dropWhile

/-- The first question publishes what waits, and from then on nothing does. -/
theorem asked_after (r : Registry) (calls : List Call) :
    (r.after calls).asked =
      (r.publishAll ((early calls).flatMap Call.publications)).asked.publishAll
        ((late calls).flatMap Call.publications) := by
  have hearly : ∀ c ∈ early calls, c.isQuestion = false := by
    intro c hc
    have hall := List.all_eq_true.1 (List.all_takeWhile (p := fun c : Call => !c.isQuestion)) c hc
    simpa using hall
  have hcalls : r.after calls = (r.after (early calls)).after (late calls) := by
    rw [← after_append, early_append_late]
  rw [hcalls, after_eq_publishAll (Or.inr hearly)]
  cases hlate : late calls with
  | nil => rfl
  | cons c rest =>
      have hc : c.isQuestion = true := by
        have hhead := List.head?_dropWhile_not (fun c : Call => !c.isQuestion) calls
        rw [late] at hlate
        rw [hlate] at hhead
        simpa using hhead
      rw [after_cons, respond_snd, if_pos hc, after_eq_publishAll (Or.inl rfl),
        List.flatMap_cons, publications_of_isQuestion hc, List.nil_append, asked_of_waiting]
      rw [waiting_publishAll]
      rfl

/-- The publications in the order in which they take effect. -/
def effective (calls : List Call) : List (String × DispatchTable) :=
  (early calls).flatMap Call.publications ++ Cpu.contribution ++
    (late calls).flatMap Call.publications

theorem tables_after (calls : List Call) :
    (start.after calls).asked.tables = Dict.ofList (effective calls) := by
  rw [asked_after, effective, Dict.ofList, List.foldl_append, List.foldl_append,
    tables_publishAll]
  unfold asked
  rw [waiting_publishAll]
  show List.foldl _ ((start.publishAll _).publishAll Cpu.contribution).tables _ = _
  rw [tables_publishAll, tables_publishAll]
  rfl

theorem lookup_contribution (device : String) :
    Cpu.contribution.reverse.lookup device = contributed? device := by
  unfold contributed?
  simp only [Cpu.contribution, Cpu.devices, List.map_cons, List.map_nil, List.reverse_cons,
    List.reverse_nil, List.nil_append, List.cons_append, List.mem_cons, List.not_mem_nil, or_false]
  by_cases hr : device = "cpu-ref"
  · subst hr
    rfl
  · by_cases hc : device = "cpu"
    · subst hc
      rfl
    · rw [List.lookup_cons, beq_false_of_ne hr, List.lookup_cons, beq_false_of_ne hc]
      simp [hr, hc]

theorem latest?_eq (calls : List Call) (device : String) :
    latest? calls device = (latest? (late calls) device).or (latest? (early calls) device) := by
  conv_lhs => rw [← early_append_late calls]
  unfold latest?
  rw [List.flatMap_append, List.reverse_append, List.lookup_append]

/-- What the registry finds after calls. -/
theorem lookup_after (calls : List Call) (device : String) :
    (start.after calls).lookup device = (latest? (late calls) device).or
      ((contributed? device).or (latest? (early calls) device)) := by
  rw [lookup, tables_after, Dict.get?_ofList_eq_lookup, effective, List.reverse_append,
    List.reverse_append, List.lookup_append, List.lookup_append, lookup_contribution]
  rfl

theorem isSome_lookup (calls : List Call) (device : String) :
    ((start.after calls).lookup device).isSome = (expected? calls device).isSome := by
  rw [lookup_after, expected?, latest?_eq calls device]
  simp only [Option.isSome_or]
  cases (latest? (late calls) device).isSome <;> cases (contributed? device).isSome <;> simp

/-- The last publication counts unless it is overridden. -/
theorem lookup_eq_expected_iff (calls : List Call) (device : String) :
    (start.after calls).lookup device = expected? calls device ↔ ¬Overridden calls device := by
  rw [lookup_after, expected?, Overridden, latest?_eq calls device]
  cases hl : latest? (late calls) device with
  | some table => simp
  | none =>
      unfold contributed?
      by_cases hd : device ∈ Cpu.devices
      · cases latest? (early calls) device with
        | none => simp
        | some table => simp [hd, eq_comm]
      · simp [hd]

theorem lookup_of_overridden (h : Overridden calls device) :
    (start.after calls).lookup device = some Cpu.table := by
  rw [lookup_after, h.2.1, contributed?, if_pos h.1]
  rfl

/-! ## Answers -/

def answerTo (past : List Call) (c : Call) (future : List Call) : Option Answer :=
  (start.answers (past ++ c :: future))[past.length]?

/-- At any time the registry finds the table that was published last for a device, or the one that
the backend contributes where none was, unless the publication is overridden; then it finds the
backend's. It knows exactly the devices for which it finds a table, and lists each of them once, in
order. -/
theorem answerTo_lookup (past future : List Call) :
    ∃ names, answerTo past .devices future = some (.names names) ∧ names.Pairwise (· < ·) ∧
      ∀ device, ∃ found, answerTo past (.lookup device) future = some (.table found) ∧
        answerTo past (.contains device) future = some (.isKnown found.isSome) ∧
        (device ∈ names ↔ found.isSome = true) ∧
        found.isSome = (expected? past device).isSome ∧
        (found = expected? past device ↔ ¬Overridden past device) ∧
        (Overridden past device → found = some Cpu.table) := by
  refine ⟨(start.after past).devices, getElem?_answers _ _ _ _, ?_, ?_⟩
  · unfold devices
    rw [tables_after]
    exact Dict.pairwise_keys (Dict.ordered_ofList _)
  · intro device
    refine ⟨(start.after past).lookup device, getElem?_answers _ _ _ _, getElem?_answers _ _ _ _,
      Dict.mem_keys_iff_isSome, isSome_lookup past device, lookup_eq_expected_iff past device,
      lookup_of_overridden⟩

/-- A table that is published for a device of the backend before anything was asked is not found
again. -/
theorem published_table_lost :
    expected? [.publish "cpu" .empty] "cpu" = some .empty ∧
      answerTo [.publish "cpu" .empty] (.lookup "cpu") [] = some (.table (some Cpu.table)) ∧
        some Cpu.table ≠ expected? [.publish "cpu" .empty] "cpu" := by
  have hne : Cpu.table ≠ .empty := by
    intro h
    have htypes : Cpu.table.opTypes ≠ DispatchTable.empty.opTypes := by decide
    exact htypes (congrArg DispatchTable.opTypes h)
  have hexpected : expected? [.publish "cpu" .empty] "cpu" = some .empty := rfl
  have hover : Overridden [.publish "cpu" .empty] "cpu" :=
    ⟨by decide, rfl, .empty, rfl, hne.symm⟩
  refine ⟨hexpected, ?_, ?_⟩
  · unfold answerTo
    rw [getElem?_answers]
    exact congrArg (fun found => some (Answer.table found)) (lookup_of_overridden hover)
  · rw [hexpected]
    intro h
    exact hne (Option.some.inj h)

end Dataflow.Registry
