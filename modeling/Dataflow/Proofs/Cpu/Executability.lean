import Dataflow.Proofs.Program.Feeding

/-!
# Nodes in order can be executed

Three checks stand between a list of nodes and the reference backend's kernels: that the nodes are
in order, that lowering finds the bottoms of each node in front of it, and that every operation
reads what stands in front of it. For a graph the first of them decides the other two, so lowering
nodes in order fails for what a handler says only, and nodes in any other order are never lowered.

An operation of the backend has as many inputs as its kernel takes, and input nodes are asked for
under their own names. A run that is fed what the program asks for thus lacks no input, and no
kernel complains about the number of its inputs.
-/

namespace Dataflow

/-! ## Numbers of inputs -/

namespace Kernel

def Takes (count : Nat) : Kernel → Prop
  | constant _ => True
  | tuple => True
  | add => count = 2
  | multiply => count = 2
  | _ => count = 1

def ArityFree {α : Type} (x : Except (Failure KernelError) α) : Prop :=
  ∀ opType name expected given, x ≠ .error (.error (.arity opType name expected given))

variable {α β : Type} {k : Kernel} {opType name : String} {inputs : List Value}

theorem arityFree_ok (a : α) : ArityFree (.ok a : Except (Failure KernelError) α) := by
  intro t n e g h
  cases h

theorem ArityFree.bind {x : Except (Failure KernelError) α}
    {f : α → Except (Failure KernelError) β} (hx : ArityFree x) (hf : ∀ a, ArityFree (f a)) :
    ArityFree (x >>= f) := by
  intro t n e g h
  rcases Outcome.bind_eq_error.1 h with h | ⟨a, -, h⟩
  · exact hx t n e g h
  · exact hf a t n e g h

theorem arityFree_value (x : Except ValueError α) :
    ArityFree (x.mapError fun e => (.error (.value e) : Failure KernelError)) := by
  intro t n e g h
  obtain ⟨_, -, he⟩ := Outcome.mapError_eq_error.1 h
  cases he

theorem arityFree_lift (x : Except (Failure TensorError) α) : ArityFree (lift x) := by
  intro t n e g h
  obtain ⟨c, -, he⟩ := Outcome.mapError_eq_error.1 h
  cases c <;> cases he

theorem arityFree_tensor (x : Except (Failure TensorError) Tensor) :
    ArityFree (do return Value.tensor (← lift x)) :=
  (arityFree_lift x).bind fun t => arityFree_ok (Value.tensor t)

theorem arityFree_oneTensor (h : inputs.length = 1) :
    ArityFree (oneTensor opType name inputs) := by
  obtain ⟨v, rfl⟩ := List.length_eq_one_iff.1 h
  exact arityFree_value v.asTensor

theorem arityFree_combine {f : Single → Single → Single} (h : inputs.length = 2) :
    ArityFree (combine f opType name inputs) := by
  obtain ⟨v, w, rfl⟩ := List.length_eq_two.1 h
  exact (arityFree_value v.asTensor).bind fun a =>
    (arityFree_value w.asTensor).bind fun b => arityFree_tensor (a.zipWith f b)

/-- A kernel that is applied to as many inputs as it takes does not complain about their number. -/
theorem arityFree_forward (h : k.Takes inputs.length) :
    ArityFree (k.forward opType name inputs) := by
  cases k with
  | input declared =>
      refine (arityFree_oneTensor h).bind fun t => ?_
      split
      · exact arityFree_ok _
      · intro t n e g h
        cases h
  | constant value => exact arityFree_ok _
  | add => exact arityFree_combine h
  | multiply => exact arityFree_combine h
  | relu => exact (arityFree_oneTensor h).bind fun t => arityFree_ok _
  | identity =>
      obtain ⟨v, rfl⟩ := List.length_eq_one_iff.1 h
      exact arityFree_ok v
  | biasAdd axis bias =>
      exact (arityFree_oneTensor h).bind fun t => arityFree_tensor (t.addBias bias axis)
  | transpose axes =>
      exact (arityFree_oneTensor h).bind fun t => arityFree_tensor (t.transpose axes)
  | element index =>
      obtain ⟨v, rfl⟩ := List.length_eq_one_iff.1 h
      exact (arityFree_value (v.element index)).bind fun t => arityFree_ok (Value.tensor t)
  | tuple =>
      intro t n e g h
      rcases Outcome.bind_eq_error.1 h with h | ⟨_, _, h⟩
      · obtain ⟨v, -, hv⟩ := Outcome.exists_of_mapM_eq_error h
        exact arityFree_value v.asTensor t n e g hv
      · cases h
  | convolution spec =>
      refine (arityFree_oneTensor h).bind fun t => (arityFree_lift (spec.apply t)).bind fun sums => ?_
      cases spec.bias with
      | none => exact arityFree_ok _
      | some bias => exact arityFree_tensor (sums.addBias bias 1)

end Kernel

/-! ## Messages -/

namespace KernelError

open Text

def Quotes (s : String) : Prop := '\'' ∈ s.toList

instance (s : String) : Decidable (Quotes s) := inferInstanceAs (Decidable (_ ∈ s.toList))

theorem quotes_append {s t : String} : Quotes (s ++ t) ↔ Quotes s ∨ Quotes t := by
  rw [Quotes, String.toList_append, List.mem_append]
  rfl

theorem quotes_toString {s : String} : Quotes (toString s) ↔ Quotes s := Iff.rfl

theorem isDigit_of_mem_toString {n : Nat} {c : Char} (h : c ∈ (toString n).toList) :
    c.isDigit = true := by
  have h : c ∈ (Nat.repr n).toList := h
  rw [Nat.toList_repr] at h
  exact Nat.isDigit_of_mem_toDigits (by decide) (by decide) h

theorem not_quotes_size (n : Nat) : ¬Quotes (toString n) := by
  intro h
  exact absurd (isDigit_of_mem_toString h) (by decide)

theorem not_quotes_intercalate {items : List String} (h : ∀ s ∈ items, ¬Quotes s) :
    ¬Quotes (", ".intercalate items) := by
  induction items with
  | nil => decide +kernel
  | cons s items ih =>
      rw [List.forall_mem_cons] at h
      by_cases hne : items = []
      · subst hne
        rw [String.intercalate_singleton]
        exact h.1
      · rw [String.intercalate_cons_of_ne_nil hne, quotes_append, quotes_append]
        rintro ((hq | hq) | hq)
        · exact h.1 hq
        · exact absurd hq (by decide +kernel)
        · exact ih h.2 hq

theorem not_quotes_showSizes (dims : List Nat) : ¬Quotes (showSizes dims) := by
  rw [showSizes, bracket, quotes_append, quotes_append]
  rintro ((h | h) | h)
  · exact absurd h (by decide +kernel)
  · refine not_quotes_intercalate ?_ h
    intro s hs
    obtain ⟨n, -, rfl⟩ := List.mem_map.1 hs
    exact not_quotes_size n
  · exact absurd h (by decide +kernel)

theorem not_quotes_value (e : ValueError) : ¬Quotes e.message := by
  unfold ValueError.message
  cases e <;> simp only [quotes_append, quotes_toString, not_quotes_size, or_false] <;>
    decide +kernel

theorem not_quotes_tensor (e : TensorError) : ¬Quotes e.message := by
  unfold TensorError.message
  cases e <;>
    simp only [quotes_append, quotes_toString, not_quotes_size, not_quotes_showSizes, or_false] <;>
    decide +kernel

variable {opType name : String} {expected given : Nat}

theorem message_arity : (arity opType name expected given).message =
    opType ++ " '" ++ name ++ "' expects " ++ toString expected ++ " input(s), got " ++
      toString given := rfl

theorem quotes_arity : Quotes (arity opType name expected given).message := by
  rw [message_arity]
  simp only [quotes_append]
  have h : Quotes " '" := by decide +kernel
  simp only [h, or_true, true_or]

theorem exists_isDigit_arity : ∃ c,
    (arity opType name expected given).message.toList.getLast? = some c ∧ c.isDigit = true := by
  obtain ⟨c, hc⟩ : ∃ c, (toString given).toList.getLast? = some c := by
    have h : (toString given).toList = Nat.toDigits 10 given := Nat.toList_repr
    rw [← Option.isSome_iff_exists, List.getLast?_isSome, h]
    exact Nat.toDigits_ne_nil
  refine ⟨c, ?_, isDigit_of_mem_toString (List.mem_of_getLast? hc)⟩
  rw [message_arity, String.toList_append, List.getLast?_append, hc, Option.some_or]

theorem getLast?_nonconforming {declared : TensorShape} {dims : List Nat} :
    (nonconforming name declared dims).message.toList.getLast? = some ']' := by
  have h : (nonconforming name declared dims).message =
      "input '" ++ name ++ "' declared as " ++ declared.display ++ " but fed " ++
        ("[" ++ ", ".intercalate (dims.map toString) ++ "]") := rfl
  have hclose : "]".toList.getLast? = some ']' := by decide +kernel
  rw [h, String.toList_append, List.getLast?_append, String.toList_append, List.getLast?_append,
    hclose, Option.some_or, Option.some_or]

/-- The text of a complaint about the number of inputs is that of no other error. -/
theorem exists_arity_of_message {c : KernelError}
    (h : c.message = (arity opType name expected given).message) :
    ∃ t n e g, c = arity t n e g := by
  cases c with
  | arity t n e g => exact ⟨t, n, e, g, rfl⟩
  | nonconforming n declared dims =>
      obtain ⟨d, hd, hdigit⟩ : ∃ d,
          (nonconforming n declared dims).message.toList.getLast? = some d ∧ d.isDigit = true := by
        rw [h]
        exact exists_isDigit_arity
      rw [getLast?_nonconforming] at hd
      cases hd
      exact absurd hdigit (by decide)
  | value e =>
      have hq : Quotes (value e).message := by
        rw [h]
        exact quotes_arity
      exact absurd hq (not_quotes_value e)
  | tensor e =>
      have hq : Quotes (tensor e).message := by
        rw [h]
        exact quotes_arity
      exact absurd hq (not_quotes_tensor e)

end KernelError

namespace Cpu

open Program

variable {n : Node} {shape : String → Option Shapes} {params feed : Dict Tensor} {batch : Int}
  {o : Operation} {r : Recipe} {done : List Stage} {nodes : List Node} {name : String}
  {p : Program} {cause : ProgramError} {h : Handler}

/-! ## Operations of the backend -/

def Saturated (n : Node) (o : Operation) : Prop :=
  ∃ (k : Kernel) (inputs : List String) (s : Shapes),
    o = k.operation n inputs s ∧ k.Takes inputs.length

theorem saturated_unary {k : Kernel} (ho : unary k n shape params batch = .ok o) (hk : k.Takes 1) :
    Saturated n o := by
  refine ⟨k, n.bottoms, n.shapes, unary_eq_ok ho, ?_⟩
  unfold unary at ho
  split at ho
  · next hlength => rwa [hlength]
  · cases ho

theorem saturated_binary {k : Kernel} (ho : binary k n shape params batch = .ok o) (hk : k.Takes 2) :
    Saturated n o := by
  refine ⟨k, n.bottoms, n.shapes, binary_eq_ok ho, ?_⟩
  unfold binary at ho
  split at ho
  · next hlength => rwa [hlength]
  · cases ho

theorem saturated_of_handler {t : String} (hm : (t, h) ∈ handlers)
    (ho : h n shape params batch = .ok o) : Saturated n o := by
  simp only [handlers, List.mem_cons, Prod.mk.injEq, List.not_mem_nil, or_false] at hm
  have hinput : input n shape params batch = .ok o → Saturated n o := by
    intro ho
    obtain ⟨s, -, rfl⟩ := input_eq_ok.1 ho
    exact ⟨_, [n.name], _, rfl, rfl⟩
  rcases hm with ⟨-, rfl⟩ | ⟨-, rfl⟩ | ⟨-, rfl⟩ | ⟨-, rfl⟩ | ⟨-, rfl⟩ | ⟨-, rfl⟩ | ⟨-, rfl⟩ |
    ⟨-, rfl⟩ | ⟨-, rfl⟩ | ⟨-, rfl⟩ | ⟨-, rfl⟩ | ⟨-, rfl⟩ | ⟨-, rfl⟩
  · exact hinput ho
  · exact hinput ho
  · obtain ⟨value, -, rfl⟩ := constant_eq_ok ho
    exact ⟨_, [], _, rfl, trivial⟩
  · exact saturated_binary ho rfl
  · exact saturated_binary ho rfl
  · exact saturated_binary ho rfl
  · exact saturated_unary ho rfl
  · exact saturated_unary ho rfl
  · obtain ⟨bias, -, ho⟩ := Outcome.bind_eq_ok.1 ho
    obtain ⟨axis, -, ho⟩ := Outcome.bind_eq_ok.1 ho
    exact saturated_unary ho rfl
  · obtain ⟨axes, -, ho⟩ := Outcome.bind_eq_ok.1 ho
    obtain ⟨sizes, -, ho⟩ := Outcome.bind_eq_ok.1 ho
    exact saturated_unary ho rfl
  · obtain ⟨index, -, source, -, rfl⟩ := accessor_eq_ok.1 ho
    exact ⟨_, [source], _, rfl, rfl⟩
  · obtain ⟨items, -, rfl⟩ := tuple_eq_ok.1 ho
    exact ⟨_, n.bottoms, _, rfl, trivial⟩
  · obtain ⟨weights, -, ho⟩ := Outcome.bind_eq_ok.1 ho
    obtain ⟨strides, -, ho⟩ := Outcome.bind_eq_ok.1 ho
    obtain ⟨padding, -, ho⟩ := Outcome.bind_eq_ok.1 ho
    obtain ⟨dilation, -, ho⟩ := Outcome.bind_eq_ok.1 ho
    exact saturated_unary ho rfl

theorem forward_ne_arity (hf : Saturated n o) {values : List Value}
    (hlength : values.length = o.inputs.length) {opType name : String} {expected given : Nat} :
    o.forward values ≠
      .error (.error (KernelError.arity opType name expected given).message) := by
  obtain ⟨k, inputs, s, rfl, hk⟩ := hf
  intro he
  obtain ⟨e, hforward, he⟩ := Outcome.mapError_eq_error.1 he
  cases e with
  | fault f => cases he
  | error c =>
      obtain ⟨t, m, e, g, rfl⟩ :=
        KernelError.exists_arity_of_message (Failure.error.inj he)
      refine Kernel.arityFree_forward ?_ t m e g hforward
      rwa [hlength]

/-! ## Lowering nodes in order -/

/-- The error is about what the table or a handler says of a node. -/
def Refusal (cause : ProgramError) : Prop :=
  (∃ node opType device, cause = .unsupportedOperation node opType device) ∨
    ∃ node flaw, cause = .lowering node flaw

/-- A new node behind its bottoms is lowered to a stage with one operation, or refused. -/
theorem lowerNode_cases (ht : r.table = table) (hdone : ∀ s ∈ done, Simple s)
    (hn : n.name ∉ done.map (·.node.name)) (hb : ∀ b ∈ n.bottoms, b ∈ done.map (·.node.name)) :
    (∃ s, lowerNode r done n = .ok s ∧ s.node = n ∧ Simple s) ∨
      ∃ cause, lowerNode r done n = .error cause ∧ Refusal cause := by
  have hfind : n.bottoms.find? (· ∉ done.map (·.node.name)) = none := by
    rw [List.find?_eq_none]
    intro b hmem
    simpa using hb b hmem
  cases hget : r.table.get? n.opType with
  | none =>
      refine Or.inr ⟨.unsupportedOperation n.name n.opType r.device, ?_, Or.inl ⟨_, _, _, rfl⟩⟩
      unfold lowerNode
      simp only [hn, if_false, hfind, hget]
      rfl
  | some l =>
      obtain ⟨h, hm, rfl⟩ := table_get?.1 (ht ▸ hget)
      cases hok : h n (shapeOf done) r.params r.batch with
      | ok o =>
          have hl := lowersTo_of_handler hm hok
          exact Or.inl ⟨_, lowerNode_of_handler hdone hn hb hget (lowering_eq_ok.2 ⟨o, hok, rfl⟩) hl,
            rfl, o, rfl, hl⟩
      | error e =>
          refine Or.inr ⟨.lowering n.name (.handler e.message), ?_, Or.inr ⟨_, _, rfl⟩⟩
          unfold lowerNode
          simp only [hn, if_false, hfind, hget, Handler.lowering, hok]
          rfl

theorem refusal_of_lowerNodes (ht : r.table = table) (hdone : ∀ s ∈ done, Simple s)
    (hd : (nodes.map Node.name).Nodup) (hn : ∀ n ∈ nodes, n.name ∉ done.map (·.node.name))
    {seen : List String} (hs : ∀ b ∈ seen, b ∈ done.map (·.node.name))
    (ho : Graph.orderedAfter seen nodes = true) (he : lowerNodes r done nodes = .error cause) :
    Refusal cause := by
  induction nodes generalizing done seen with
  | nil => cases he
  | cons n ns ih =>
      rw [List.forall_mem_cons] at hn
      rw [List.map_cons, List.nodup_cons] at hd
      rw [Graph.orderedAfter, Bool.and_eq_true] at ho
      have hb : ∀ b ∈ n.bottoms, b ∈ done.map (·.node.name) := fun b hb =>
        hs b (of_decide_eq_true (List.all_eq_true.1 ho.1 b hb))
      rw [lowerNodes] at he
      rcases lowerNode_cases ht hdone hn.1 hb with ⟨s, hok, rfl, hsimple⟩ | ⟨c, herror, hc⟩
      · rw [hok, Outcome.ok_bind] at he
        have hnames : (done ++ [s]).map (·.node.name) =
            done.map (·.node.name) ++ [s.node.name] := by
          rw [List.map_append, List.map_cons, List.map_nil]
        refine ih ?_ hd.2 ?_ ?_ ho.2 he
        · intro s' hs'
          rcases List.mem_append.1 hs' with hs' | hs'
          · exact hdone s' hs'
          · rwa [List.mem_singleton.1 hs']
        · intro m hm
          rw [hnames, List.mem_append, List.mem_singleton, not_or]
          exact ⟨hn.2 m hm, fun he => hd.1 (he ▸ List.mem_map_of_mem hm)⟩
        · intro b hb
          rw [hnames, List.mem_append, List.mem_singleton]
          rcases List.mem_cons.1 hb with rfl | hb
          · exact Or.inr rfl
          · exact Or.inl (hs b hb)
      · rw [herror] at he
        cases he
        exact hc

theorem refusal_of_lower (ht : r.table = table) (hd : (nodes.map Node.name).Nodup)
    (ho : Graph.orderedAfter [] nodes = true) (he : lower name nodes r = .error cause) :
    Refusal cause := by
  rcases Outcome.bind_eq_error.1 he with he | ⟨_, _, he⟩
  · exact refusal_of_lowerNodes ht (by simp) hd (by simp) (by simp) ho he
  · cases he

/-! ## Running nodes in order -/

theorem saturated_of_lower (hl : lower name nodes r = .ok p) (ht : r.table = table)
    (ho : o ∈ p.operations) : ∃ n, Saturated n o := by
  obtain ⟨n, -, h, known, hm, hok⟩ := exists_handler_of_operation hl ht ho
  exact ⟨n, saturated_of_handler hm hok⟩

theorem not_endsIn_arity (hl : lower name nodes r = .ok p) (ht : r.table = table)
    {op opType n : String} {expected given : Nat} :
    ¬p.EndsIn feed (.kernel op (KernelError.arity opType n expected given).message) := by
  intro hend
  rcases failsAt_of_endsIn hend with ⟨stop, front, o, store, hc, hfail⟩ | ⟨_, he⟩
  · have hmem : o ∈ p.operations := by
      obtain ⟨back, hsplit⟩ := hc.split
      rw [hsplit]
      simp
    rcases failsAt_cases hfail with ⟨_, _, he, -⟩ | ⟨inputs, m, hi, hf, he⟩ |
      ⟨inputs, output, m, hx, hv, -⟩
    · cases he
    · obtain ⟨rfl, rfl⟩ := ProgramError.kernel.inj he
      obtain ⟨node, hsat⟩ := saturated_of_lower hl ht hmem
      exact forward_ne_arity hsat (Outcome.mapM_eq_ok.1 hi).length_eq.symm hf
    · obtain ⟨view, hview⟩ := view_of_lower hl ht hmem (execute_eq_ok.1 hx).2
      rw [hview] at hv
      cases hv
  · cases he

theorem fedBy_of_lower (hl : lower name nodes r = .ok p) (ht : r.table = table) :
    p.FedBy p.inputNames := by
  refine fedBy_of_subset (fedNames_subset_inputNames hl fun s hs _ _ => ?_)
  obtain ⟨o, hops, hlower⟩ := simple_of_lower hl ht s hs
  rw [Stage.first]
  simp only [hops, List.head_cons]
  exact hlower.name_eq

/-- Lowering the nodes of a graph for the reference backend fails for an unsupported type or for
what a handler says only, if the nodes are in order, and always if they are not. The runs of a
program that it makes, fed what the program asks for, lack no input, and no kernel complains about
the number of its inputs. -/
theorem lower_cases_of_order (g : Graph) (name device : String) (params : Dict Tensor)
    (batch : Int) :
    (g.isTopologicallyOrdered = true → ∀ cause,
      lower name g.nodes ⟨device, table, params, batch⟩ = .error cause → Refusal cause) ∧
    (g.isTopologicallyOrdered = false → ∀ p,
      lower name g.nodes ⟨device, table, params, batch⟩ ≠ .ok p) ∧
    ∀ p, lower name g.nodes ⟨device, table, params, batch⟩ = .ok p →
      ∀ feed : Dict Tensor, (∀ i ∈ p.inputNames, feed.contains i = true) →
        (∀ op i, ¬p.EndsIn feed (.unresolvedInput op i)) ∧
          ∀ op opType n expected given,
            ¬p.EndsIn feed (.kernel op (KernelError.arity opType n expected given).message) := by
  refine ⟨fun ho cause he => refusal_of_lower rfl g.nodup ho he, fun ho p hl => ?_,
    fun p hl feed hfeed => ⟨fedBy_of_lower hl rfl feed hfeed, ?_⟩⟩
  · have hord := (ordered_of_lower hl).2
    rw [Graph.isTopologicallyOrdered, hord] at ho
    cases ho
  · intro op opType n expected given
    exact not_endsIn_arity hl rfl

/-- The addends in order and in reverse, and a node of a type that the backend does not know. -/
theorem lower_cases_addends : ∃ (g g' u : Graph) (feed : Dict Tensor) (p : Program)
    (cause : ProgramError),
    (g.nodes = addends ∧ g'.nodes = addends.reverse ∧
      u.nodes = [Node.make "x" "Softmax" (.tensor ⟨[1]⟩)]) ∧
    (g.isTopologicallyOrdered = true ∧ g'.isTopologicallyOrdered = false ∧
      u.isTopologicallyOrdered = true) ∧
    (lower "u" u.nodes ⟨"cpu", table, .empty, openBatch⟩ = .error cause ∧ Refusal cause) ∧
    (∀ p', lower "sum" g'.nodes ⟨"cpu", table, .empty, openBatch⟩ ≠ .ok p') ∧
    lower "sum" g.nodes ⟨"cpu", table, .empty, openBatch⟩ = .ok p ∧
      p.inputNames = ["x", "y"] ∧ (∀ i ∈ p.inputNames, feed.contains i = true) ∧
        (∀ op i, ¬p.EndsIn feed (.unresolvedInput op i)) ∧
          ∀ op opType n expected given,
            ¬p.EndsIn feed (.kernel op (KernelError.arity opType n expected given).message) := by
  let g : Graph := ⟨"sum", addends, none, by decide, by decide⟩
  let g' : Graph := ⟨"sum", addends.reverse, none, by decide, by decide⟩
  let u : Graph := ⟨"u", [.make "x" "Softmax" (.tensor ⟨[1]⟩)], none, by decide, by decide⟩
  let feed : Dict Tensor := ⟨[("x", ⟨[1], [⟨7⟩]⟩), ("y", ⟨[1], [⟨9⟩]⟩)]⟩
  have hg : g.isTopologicallyOrdered = true := by decide +kernel
  have hg' : g'.isTopologicallyOrdered = false := by decide +kernel
  have hu : u.isTopologicallyOrdered = true := by decide +kernel
  obtain ⟨cause, hcause⟩ : ∃ cause,
      lower "u" u.nodes ⟨"cpu", table, .empty, openBatch⟩ = .error cause := ⟨_, rfl⟩
  obtain ⟨p, hl, hinputs⟩ : ∃ p, lower "sum" g.nodes ⟨"cpu", table, .empty, openBatch⟩ = .ok p ∧
      p.inputNames = ["x", "y"] := ⟨_, rfl, rfl⟩
  have hfeed : ∀ i ∈ p.inputNames, feed.contains i = true := by
    rw [hinputs]
    decide
  refine ⟨g, g', u, feed, p, cause, ⟨rfl, rfl, rfl⟩, ⟨hg, hg', hu⟩, ⟨hcause, ?_⟩, ?_, hl, hinputs,
    hfeed, ?_⟩
  · exact (lower_cases_of_order u "u" "cpu" .empty openBatch).1 hu cause hcause
  · exact (lower_cases_of_order g' "sum" "cpu" .empty openBatch).2.1 hg'
  · exact (lower_cases_of_order g "sum" "cpu" .empty openBatch).2.2 p hl feed hfeed

end Cpu

end Dataflow
