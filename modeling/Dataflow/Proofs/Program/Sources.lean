import Dataflow.Cpu.Lowering
import Dataflow.Proofs.Program.Stages

/-!
# Where values come from

An operation reads values by name. Under the name of a bottom of its node it reads what the latest
operation of that name computed, or the parameter of the name if no operation in front of it has
it. The value of a bottom is computed by the last of its operations, but only the names decide
whether this is the one that is read: it has to be named as the node is, and no operation behind it
may bear the name again. Lowering makes sure of neither.
-/

namespace Dataflow

/-- The stage ends with an operation of the name of its node, and none of those behind it has the
name. -/
def Stage.Exposed (b : Stage) (behind : List Operation) : Prop :=
  b.last.name = b.node.name ∧ ∀ x ∈ behind, x.name ≠ b.node.name

/-- The position of the last operation of the stage among those of a program that begins with the
stages `front` and goes on with it. -/
def Stage.lastPosition (front : List Stage) (b : Stage) : Nat :=
  (front.flatMap operations ++ b.operations.dropLast).length

namespace Program

variable {p : Program} {feed : Dict Tensor} {stop : Option String} {store : Store}
  {ops front back behind : List Operation} {o x : Operation} {name : String} {nodes : List Node}
  {r : Recipe} {i : String} {v w : Value}

/-! ## Stores of runs -/

def computed (store : Store) (k : Nat) : Option Value := store.reverse[k]?.map Prod.snd

theorem computed_append {later earlier : Store} :
    computed (later ++ (i, v) :: earlier) earlier.length = some v := by
  rw [computed, List.reverse_append, List.reverse_cons, List.append_assoc,
    List.getElem?_append_right (by simp)]
  simp

theorem exists_store_split
    (hk : store.map Prod.fst = ((front ++ x :: behind).map Operation.name).reverse) :
    ∃ later w earlier, store = later ++ (x.name, w) :: earlier ∧
      later.map Prod.fst = (behind.map Operation.name).reverse ∧
        earlier.length = front.length := by
  rw [List.map_append, List.map_cons, List.reverse_append, List.reverse_cons, List.append_assoc,
    List.singleton_append, List.map_eq_append_iff] at hk
  obtain ⟨later, rest, rfl, hlater, hrest⟩ := hk
  obtain ⟨⟨i, w⟩, earlier, rfl, rfl, hearlier⟩ := List.map_eq_cons_iff.1 hrest
  refine ⟨later, w, earlier, rfl, hlater, ?_⟩
  rw [← List.length_map Prod.fst, hearlier, List.length_reverse, List.length_map]

/-- A name is looked up to the value of an operation of the name, behind which none has the name. -/
theorem exists_computed_of_lookup
    (hk : store.map Prod.fst = (ops.map Operation.name).reverse) (hv : store.lookup i = some v) :
    ∃ front x behind, ops = front ++ x :: behind ∧ x.name = i ∧ (∀ y ∈ behind, y.name ≠ i) ∧
      computed store front.length = some v := by
  obtain ⟨later, earlier, rfl, hlater⟩ := List.lookup_eq_some_iff.1 hv
  have hnames : ops.map Operation.name =
      (earlier.map Prod.fst).reverse ++ i :: (later.map Prod.fst).reverse := by
    rw [← List.reverse_reverse (ops.map Operation.name), ← hk]
    simp
  obtain ⟨front, rest, rfl, hfront, hrest⟩ := List.map_eq_append_iff.1 hnames
  obtain ⟨x, behind, rfl, hx, hbehind⟩ := List.map_eq_cons_iff.1 hrest
  refine ⟨front, x, behind, rfl, hx, fun y hy he => ?_, ?_⟩
  · have hmem : i ∈ (later.map Prod.fst).reverse := by
      rw [← hbehind, ← he]
      exact List.mem_map_of_mem hy
    obtain ⟨e, hin, hname⟩ := List.mem_map.1 (List.mem_reverse.1 hmem)
    exact absurd (hlater e hin) (by simp [hname])
  · have hlength : front.length = earlier.length := by
      rw [← List.length_map Operation.name, hfront, List.length_reverse, List.length_map]
    rw [hlength]
    exact computed_append

/-! ## Reads of bottoms -/

theorem readable_of_lower {T S : List Stage} {c : Stage} (hl : lower name nodes r = .ok p)
    (hs : p.stages = T ++ c :: S) (hc : c.operations = front ++ o :: back) (hi : i ∈ o.inputs) :
    i ∈ (T.flatMap Stage.operations ++ front).map Operation.name ∨
      p.params.contains i = true ∨ c.node.isInput = true ∧ i = c.node.name := by
  obtain ⟨hparams, hl⟩ := lower_eq_ok hl
  obtain ⟨new, he, -, hsplit⟩ := lowerNodes_eq_ok hl
  rw [List.nil_append] at he
  obtain ⟨-, -, -, -, hcheck⟩ := lowerNode_eq_ok (hsplit T c S (he ▸ hs))
  rw [List.nil_append, hc] at hcheck
  rw [hparams, List.map_append, List.mem_append, or_assoc]
  exact checkInputs_eq_ok hcheck i hi

theorem exists_bottom_of_lower {T S : List Stage} {c : Stage} (hl : lower name nodes r = .ok p)
    (hs : p.stages = T ++ c :: S) (hb : i ∈ c.node.bottoms) :
    i ≠ c.node.name ∧ ∃ b ∈ T, b.node.name = i := by
  obtain ⟨new, he, -, hsplit⟩ := lowerNodes_eq_ok (lower_eq_ok hl).2
  rw [List.nil_append] at he
  obtain ⟨-, hname, hbottoms, -⟩ := lowerNode_eq_ok (hsplit T c S (he ▸ hs))
  rw [List.nil_append] at hname hbottoms
  exact ⟨fun h => hname (h ▸ hbottoms i hb), List.mem_map.1 (hbottoms i hb)⟩

theorem operations_split (T₁ T₂ : List Stage) (b : Stage) (front : List Operation) :
    (T₁ ++ b :: T₂).flatMap Stage.operations ++ front =
      (T₁.flatMap Stage.operations ++ b.operations.dropLast) ++
        b.last :: (T₂.flatMap Stage.operations ++ front) := by
  rw [List.flatMap_append, List.flatMap_cons, ← List.dropLast_append_getLast b.nonempty]
  simp [Stage.last]

section

variable {T₁ T₂ : List Stage} {b : Stage}

/-- The value under the name of an exposed stage is that of its last operation. -/
theorem computed_of_exposed
    (hk : store.map Prod.fst =
      (((T₁ ++ b :: T₂).flatMap Stage.operations ++ front).map Operation.name).reverse)
    (hexp : b.Exposed (T₂.flatMap Stage.operations ++ front))
    (hv : store.lookup b.node.name = some v) : computed store (b.lastPosition T₁) = some v := by
  rw [operations_split] at hk
  obtain ⟨later, w, earlier, rfl, hlater, hlength⟩ := exists_store_split hk
  have hnone : later.lookup b.node.name = none := by
    rw [Dict.lookup_eq_none_iff_notMem, hlater, List.mem_reverse]
    intro hmem
    obtain ⟨x, hx, hname⟩ := List.mem_map.1 hmem
    exact hexp.2 x hx hname
  rw [List.lookup_append, hnone, Option.none_or, hexp.1, List.lookup_cons_self] at hv
  rw [Stage.lastPosition, ← hlength, computed_append, hv]

/-- The value under the name of a stage that is not exposed is that of another operation. -/
theorem exists_computed_of_not_exposed
    (hk : store.map Prod.fst =
      (((T₁ ++ b :: T₂).flatMap Stage.operations ++ front).map Operation.name).reverse)
    (hexp : ¬b.Exposed (T₂.flatMap Stage.operations ++ front))
    (hv : store.lookup b.node.name = some v) :
    ∃ k ≠ b.lastPosition T₁, computed store k = some v ∧
      (((T₁ ++ b :: T₂).flatMap Stage.operations ++ front)[k]?).map Operation.name =
        some b.node.name := by
  obtain ⟨front', x, behind, hsplit, hx, hbehind, hcomp⟩ := exists_computed_of_lookup hk hv
  refine ⟨front'.length, fun hlength => hexp ?_, hcomp, ?_⟩
  · -- the operation that is read would stand where the last one of the stage does
    rw [operations_split] at hsplit
    obtain ⟨-, heq⟩ := List.append_inj hsplit hlength.symm
    obtain ⟨rfl, rfl⟩ := List.cons.inj heq
    exact ⟨hx, hbehind⟩
  · rw [hsplit]
    simp [hx]

theorem mem_names_of_exposed (hexp : b.Exposed (T₂.flatMap Stage.operations ++ front)) :
    b.node.name ∈
      ((T₁ ++ b :: T₂).flatMap Stage.operations ++ front).map Operation.name := by
  rw [operations_split, ← hexp.1]
  exact List.mem_map_of_mem (by simp)

end

/-- Under the name of a bottom an operation reads what the last operation of the bottom computed, if
the bottom is exposed. If it is not, the operation reads what another operation of the name computed,
or the parameter of the name. -/
theorem resolve_bottom {T S : List Stage} {c : Stage} (hl : lower name nodes r = .ok p)
    (hs : p.stages = T ++ c :: S) (hc : c.operations = front ++ o :: back)
    (hb : i ∈ c.node.bottoms) (hi : i ∈ o.inputs)
    (hstop : ∀ x ∈ T.flatMap Stage.operations ++ front, stop ≠ some x.name)
    (hr : p.runFrom feed stop [] (T.flatMap Stage.operations ++ front) = .ok store) :
    (∃ b ∈ T, b.node.name = i) ∧ ∃ v, p.resolve feed store o i = .ok v ∧
      ∀ T₁ b T₂, T = T₁ ++ b :: T₂ → b.node.name = i →
        (b.Exposed (T₂.flatMap Stage.operations ++ front) →
          computed store (b.lastPosition T₁) = some v) ∧
        (¬b.Exposed (T₂.flatMap Stage.operations ++ front) →
          (∃ k ≠ b.lastPosition T₁, computed store k = some v ∧
            ((T.flatMap Stage.operations ++ front)[k]?).map Operation.name = some i) ∨
          ∃ t, p.params.get? i = some t ∧ v = .tensor t) := by
  obtain ⟨hne, hbottom⟩ := exists_bottom_of_lower hl hs hb
  refine ⟨hbottom, ?_⟩
  rw [runFrom_of_ne_stop hstop] at hr
  have hk := map_fst_runFrom hr
  rw [List.map_nil, List.append_nil] at hk
  cases hv : store.lookup i with
  | some v =>
      refine ⟨v, by rw [resolve, hv], ?_⟩
      rintro T₁ b T₂ rfl rfl
      exact ⟨fun hexp => computed_of_exposed hk hexp hv,
        fun hexp => Or.inl (exists_computed_of_not_exposed hk hexp hv)⟩
  | none =>
      have hmissing : i ∉ (T.flatMap Stage.operations ++ front).map Operation.name := by
        rw [← List.mem_reverse, ← hk]
        exact Dict.lookup_eq_none_iff_notMem.1 hv
      have hparam : p.params.contains i = true := by
        rcases readable_of_lower hl hs hc hi with hprod | hparam | ⟨-, hself⟩
        · exact absurd hprod hmissing
        · exact hparam
        · exact absurd hself hne
      obtain ⟨t, ht⟩ := Option.isSome_iff_exists.1 hparam
      refine ⟨.tensor t, by rw [resolve, hv, ht], ?_⟩
      rintro T₁ b T₂ rfl rfl
      exact ⟨fun hexp => absurd (mem_names_of_exposed hexp) hmissing, fun _ => Or.inr ⟨t, ht, rfl⟩⟩

/-! ## Names that hide the value of a node -/

/-- Every operation reads, under the name of a bottom, what the last operation of the bottom
computed. -/
def ReadsLast (p : Program) : Prop :=
  ∀ (feed : Dict Tensor) (stop : Option String) (T₁ T₂ S : List Stage) (b c : Stage)
    (front back : List Operation) (o : Operation) (store : Store) (v : Value),
    p.stages = T₁ ++ b :: T₂ ++ c :: S → c.operations = front ++ o :: back →
      b.node.name ∈ c.node.bottoms → b.node.name ∈ o.inputs →
        (∀ x ∈ (T₁ ++ b :: T₂).flatMap Stage.operations ++ front, stop ≠ some x.name) →
          p.runFrom feed stop [] ((T₁ ++ b :: T₂).flatMap Stage.operations ++ front) =
              .ok store →
            p.resolve feed store o b.node.name = .ok v →
              computed store (b.lastPosition T₁) = some v

def pointwise (f : Single → Single) : List Value → Except (Failure String) Value
  | [.tensor t] => .ok (.tensor (t.map f))
  | _ => Failure.refuse "expects one tensor"

/-- Lowers a node to a doubling and an increment, named after the node in the given ways. -/
def affine (doubled increased : String → String) : Lowering := fun n _ _ _ =>
  .ok [
    { name := doubled n.name, opType := "Scale", inputs := n.bottoms, shape := n.shapes,
      forward := pointwise (⟨0x40000000⟩ * ·) },
    { name := increased n.name, opType := "Shift", inputs := [doubled n.name], shape := n.shapes,
      forward := pointwise (· + ⟨0x3F800000⟩) }]

def affineRecipe (doubled increased : String → String) : Recipe :=
  ⟨"cpu", Cpu.table.register "Affine" (affine doubled increased), .empty, openBatch⟩

def affineNodes : List Node :=
  [{ name := "x", types := ["Input"], shapes := .tensor ⟨[1]⟩, tops := ["aff"] },
    { name := "aff", types := ["Affine"], shapes := .tensor ⟨[1]⟩, bottoms := ["x"],
      tops := ["y"] },
    { name := "y", types := ["Identity"], shapes := .tensor ⟨[1]⟩, bottoms := ["aff"] }]

def affineFeed : Dict Tensor := ⟨[("x", ⟨[1], [⟨0x40A00000⟩]⟩)]⟩

/-- The increment bears the name of the node, and the copy reads eleven. -/
theorem resolve_affine : ∃ p s b c o store v,
    lower "affine" affineNodes (affineRecipe (· ++ "_scale") id) = .ok p ∧
      p.stages = [s, b] ++ c :: [] ∧ c.operations = [] ++ o :: [] ∧ "aff" ∈ c.node.bottoms ∧
        "aff" ∈ o.inputs ∧ b.node.name = "aff" ∧ b.Exposed [] ∧
          p.runFrom affineFeed none [] ([s, b].flatMap Stage.operations ++ []) = .ok store ∧
            p.resolve affineFeed store o "aff" = .ok v ∧
              computed store (b.lastPosition [s]) = some v ∧
                v = .tensor ⟨[1], [⟨0x41300000⟩]⟩ := by
  obtain ⟨p, s, b, c, o, store, hl, hs, hc, hb, hi, hname, hexp, hr, hstore⟩ : ∃ p s b c o store,
      lower "affine" affineNodes (affineRecipe (· ++ "_scale") id) = .ok p ∧
        p.stages = [s, b] ++ c :: [] ∧ c.operations = [] ++ o :: [] ∧ "aff" ∈ c.node.bottoms ∧
          "aff" ∈ o.inputs ∧ b.node.name = "aff" ∧ b.Exposed [] ∧
            p.runFrom affineFeed none [] ([s, b].flatMap Stage.operations ++ []) = .ok store ∧
              store = [("aff", .tensor ⟨[1], [⟨0x41300000⟩]⟩),
                ("aff_scale", .tensor ⟨[1], [⟨0x41200000⟩]⟩),
                ("x", .tensor ⟨[1], [⟨0x40A00000⟩]⟩)] :=
    ⟨_, _, _, _, _, _, rfl, rfl, rfl, List.mem_singleton_self _, List.mem_singleton_self _, rfl,
      ⟨rfl, by simp⟩, by decide +kernel, rfl⟩
  obtain ⟨-, v, hv, hread⟩ := resolve_bottom hl hs hc hb hi (by simp) hr
  refine ⟨p, s, b, c, o, store, v, hl, hs, hc, hb, hi, hname, hexp, hr, hv, ?_, ?_⟩
  · exact (hread [s] b [] rfl hname).1 hexp
  · rw [resolve, hstore, List.lookup_cons_self, Except.ok.injEq] at hv
    exact hv.symm

/-- The doubling bears the name of the node, and the copy reads ten where the node computes
eleven. -/
theorem doubled_read : ∃ p, lower "affine" affineNodes (affineRecipe id (· ++ "_shift")) = .ok p ∧
    ¬p.ReadsLast := by
  obtain ⟨p, s, b, c, o, store, hl, hs, hc, hb, hi, hr, hname, hpos, hstore⟩ :
      ∃ p s b c o store,
        lower "affine" affineNodes (affineRecipe id (· ++ "_shift")) = .ok p ∧
          p.stages = [s] ++ b :: [] ++ c :: [] ∧ c.operations = [] ++ o :: [] ∧
            b.node.name ∈ c.node.bottoms ∧ b.node.name ∈ o.inputs ∧
              p.runFrom affineFeed none [] (([s] ++ b :: []).flatMap Stage.operations ++ []) =
                  .ok store ∧
                b.node.name = "aff" ∧ b.lastPosition [s] = 2 ∧
                  store = [("aff_shift", .tensor ⟨[1], [⟨0x41300000⟩]⟩),
                    ("aff", .tensor ⟨[1], [⟨0x41200000⟩]⟩),
                    ("x", .tensor ⟨[1], [⟨0x40A00000⟩]⟩)] :=
    ⟨_, _, _, _, _, _, rfl, rfl, rfl, List.mem_singleton_self _, List.mem_singleton_self _,
      by decide +kernel, rfl, rfl, rfl⟩
  refine ⟨p, hl, fun h => ?_⟩
  have hv : p.resolve affineFeed store o b.node.name = .ok (.tensor ⟨[1], [⟨0x41200000⟩]⟩) := by
    rw [resolve, hname, hstore]
    rfl
  have hlast := h affineFeed none [s] [] [] b c [] [] o store _ hs hc hb hi (by simp) hr hv
  rw [hpos, hstore] at hlast
  exact absurd hlast (by decide +kernel)

end Program

end Dataflow
