import Dataflow.Proofs.Json.Decimals
import Dataflow.Proofs.Json.Records

/-!
# Stored values are read back

What is stored of a graph can be read again exactly when its attributes do not nest too deep and
its floating point numbers are finite, and gives the same value when every number is read back as
itself. Only attributes and tensors can fail: texts, flags, integers and sizes in range always come
back. The argument about attributes follows their nesting, with one container less for each level.
-/

namespace Dataflow

open Json Storable

/-- The double is read back from its text as itself, which not every finite one is. -/
def Double.ReadBack (x : Double) : Prop := x.toJson.asDouble? = some x

def Single.ReadBack (x : Single) : Prop := x.toJson.asSingle? = some x

instance (x : Double) : Decidable x.ReadBack := inferInstanceAs (Decidable (_ = _))

instance (x : Single) : Decidable x.ReadBack := inferInstanceAs (Decidable (_ = _))

theorem Double.restores (x : Double) :
    Restores x.toJson.asDouble? x (x.isFinite = true) x.ReadBack :=
  ⟨x.isSome_asDouble?_toJson, fun _ h => h⟩

theorem Single.restores (x : Single) :
    Restores x.toJson.asSingle? x (x.isFinite = true) x.ReadBack :=
  ⟨x.isSome_asSingle?_toJson, fun _ h => h⟩

theorem Double.ReadBack.isFinite {x : Double} (h : x.ReadBack) : x.isFinite = true :=
  x.isSome_asDouble?_toJson.1 (Option.isSome_of_eq_some h)

/-- The converse fails: this finite double comes back as its neighbour. -/
example : (⟨0x3fee3fa85468ae3c⟩ : Double).isFinite = true ∧
    ¬(⟨0x3fee3fa85468ae3c⟩ : Double).ReadBack := by decide +kernel

theorem Single.ReadBack.isFinite {x : Single} (h : x.ReadBack) : x.isFinite = true :=
  x.isSome_asSingle?_toJson.1 (Option.isSome_of_eq_some h)

theorem Double.depth_toJson (x : Double) : x.toJson.depth = 0 := by
  rw [toJson]
  split <;> rfl

theorem Single.depth_toJson (x : Single) : x.toJson.depth = 0 := by
  rw [toJson]
  split <;> rfl

/-! ## Attributes -/

namespace Attr

mutual

def doubles : Attr → List Double
  | float x => [x]
  | floats xs => xs
  | map entries => mapDoubles entries
  | _ => []

def mapDoubles : Dict Attr → List Double
  | ⟨entries⟩ => entryDoubles entries

def entryDoubles : List (String × Attr) → List Double
  | [] => []
  | (_, a) :: es => doubles a ++ entryDoubles es

end

theorem forall_mem_entryDoubles {P : Double → Prop} {es : List (String × Attr)} :
    (∀ x ∈ entryDoubles es, P x) ↔ ∀ e ∈ es, ∀ x ∈ e.2.doubles, P x := by
  induction es with
  | nil => simp [entryDoubles]
  | cons e es ih => rw [entryDoubles, List.forall_mem_append, ih, List.forall_mem_cons]

theorem forall_mem_mapDoubles {P : Double → Prop} {d : Dict Attr} :
    (∀ x ∈ mapDoubles d, P x) ↔ ∀ e ∈ d.entries, ∀ x ∈ e.2.doubles, P x := by
  rw [mapDoubles, forall_mem_entryDoubles]

theorem mapToJson_eq (d : Dict Attr) : mapToJson d = d.toJson toJson := by
  obtain ⟨es⟩ := d
  rw [mapToJson, Dict.toJson]
  congr 1
  induction es with
  | nil => rfl
  | cons e es ih => rw [entriesToJson, ih, List.map_cons]

theorem spelled_toJson {a : Attr} (h : a.Storable) : a.toJson.Spelled := by
  have hcase : ∀ {tag : String} {payload : Json}, payload.Spelled →
      (record [(tag, payload)]).Spelled := fun h => spelled_record (by simpa using h)
  induction h with
  | bool b => exact hcase (.bool b)
  | @int n _ => exact hcase (spelled_int n)
  | float x => exact hcase x.spelled_toJson
  | @str s _ => exact hcase (spelled_text s)
  | @ints ns _ => exact hcase (spelled_arr_map fun n _ => spelled_int n)
  | @floats xs _ => exact hcase (spelled_arr_map fun x _ => x.spelled_toJson)
  | @strs ss _ => exact hcase (spelled_texts ss)
  | @map d _ _ _ _ ih =>
      refine hcase ?_
      rw [mapToJson_eq]
      exact spelled_record (List.forall_mem_map.2 ih)

/-- Whether the numbers of an attribute can be read, and whether they are read as themselves. -/
def Restored (read : Option Attr) (a : Attr) : Prop :=
  Restores read a (∀ x ∈ a.doubles, x.isFinite = true) (∀ x ∈ a.doubles, x.ReadBack)

theorem restored_of_no_doubles {a : Attr} (h : a.doubles = []) : Restored (some a) a := by
  refine (Restores.some a).congr ?_ fun _ => trivial
  simp [h]

/-- With so many containers the limit on nesting and the finiteness of its numbers decide whether
the attribute is read. -/
def RestoredWithin (room : Nat) (a : Attr) : Prop :=
  Restores (ofJson? room a.toJson) a
    (a.toJson.depth ≤ room ∧ ∀ x ∈ a.doubles, x.isFinite = true) (∀ x ∈ a.doubles, x.ReadBack)

/-- An attribute that needs `need` containers is not read with fewer. -/
theorem restores_of_depth {a : Attr} {need : Nat} (hdepth : a.toJson.depth = need)
    (hfew : ∀ room < need, ofJson? room a.toJson = none)
    (h : ∀ room, Restored (ofJson? (room + need) a.toJson) a) (room : Nat) :
    a.RestoredWithin room := by
  rw [RestoredWithin, hdepth]
  rcases Nat.lt_or_ge room need with hlt | hge
  · rw [hfew room hlt]
    exact ⟨iff_of_false Bool.false_ne_true fun h => Nat.not_le.2 hlt h.1,
      fun h => absurd h.1 (Nat.not_le.2 hlt)⟩
  · obtain ⟨more, rfl⟩ := Nat.exists_eq_add_of_le' hge
    exact (h more).congr (and_iff_right (Nat.le_add_left _ _)) id

theorem ofJson?_zero (j : Json) : ∀ room < 1, ofJson? room j = none := by
  intro room hroom
  rw [Nat.lt_one_iff.1 hroom, ofJson?]

/-- A list or a map takes a container of its own. -/
theorem ofJson?_container {tag : String}
    (htag : tag = "ints" ∨ tag = "floats" ∨ tag = "strs" ∨ tag = "map") (payload : Json) :
    ∀ room < 2, ofJson? room (record [(tag, payload)]) = none := by
  intro room hroom
  rcases Nat.le_one_iff_eq_zero_or_eq_one.1 (Nat.lt_succ_iff.1 hroom) with rfl | rfl
  · exact ofJson?_zero _ 0 Nat.one_pos
  · rw [ofJson?, variant?_record]
    rcases htag with rfl | rfl | rfl | rfl <;> rfl

/-- A map is read within a limit if its values are, which stand two containers deeper. -/
theorem restores_map {d : Dict Attr} (ho : d.Ordered)
    (ih : ∀ e ∈ d.entries, ∀ room, e.2.RestoredWithin room) (room : Nat) :
    (map d).RestoredWithin room := by
  have hdepth : ∀ k, (d.toJson toJson).depth ≤ k + 1 ↔
      ∀ e ∈ d.entries, e.2.toJson.depth ≤ k := fun k => by
    rw [Dict.toJson, depth_record_le, List.forall_mem_map]
  have hneed : 1 ≤ (d.toJson toJson).depth := by
    rw [Dict.toJson, record, depth]
    exact Nat.le_add_right _ _
  rw [RestoredWithin, toJson, mapToJson_eq, depth_case]
  rcases Nat.lt_or_ge room 2 with hroom | hroom
  · rw [ofJson?_container (by simp) _ room hroom]
    have hdeep : ¬(d.toJson toJson).depth + 1 ≤ room := by omega
    exact ⟨iff_of_false Bool.false_ne_true fun h => hdeep h.1, fun h => absurd h.1 hdeep⟩
  obtain ⟨room, rfl⟩ := Nat.exists_eq_add_of_le' hroom
  have hread : ofJson? (room + 2) (record [("map", d.toJson toJson)]) =
      (Dict.ofJson? (ofJson? room) (d.toJson toJson)).map map := by
    rw [ofJson?, variant?_record]
    rfl
  rw [hread]
  have hentries := Restores.dict (ofJson? room) toJson
    (fun a => a.toJson.depth ≤ room ∧ ∀ x ∈ a.doubles, x.isFinite = true)
    (fun a => ∀ x ∈ a.doubles, x.ReadBack) ho fun e he => ih e he room
  refine (hentries.map map).congr ?_ ?_
  · rw [doubles, forall_mem_mapDoubles, Nat.add_le_add_iff_right, hdepth, ← forall₂_and]
  · rw [doubles, forall_mem_mapDoubles]
    exact id

theorem restores_toJson {a : Attr} (h : a.Storable) : ∀ room, a.RestoredWithin room := by
  induction h with
  | bool b =>
      refine restores_of_depth (by rw [toJson, depth_case]; rfl) (ofJson?_zero _) fun room => ?_
      have hread : ofJson? (room + 1) (toJson (bool b)) = some (bool b) := by
        rw [toJson, ofJson?, variant?_record]
        rfl
      rw [hread]
      exact restored_of_no_doubles rfl
  | @int n hn =>
      refine restores_of_depth (by rw [toJson, depth_case]; rfl) (ofJson?_zero _) fun room => ?_
      have hread : ofJson? (room + 1) (toJson (int n)) = (Json.int n).asInt?.map int := by
        rw [toJson, ofJson?, variant?_record]
        rfl
      rw [hread, asInt?_int hn]
      exact restored_of_no_doubles rfl
  | float x =>
      refine restores_of_depth (by rw [toJson, depth_case, Double.depth_toJson]) (ofJson?_zero _)
        fun room => ?_
      have hread : ofJson? (room + 1) (toJson (float x)) = x.toJson.asDouble?.map float := by
        rw [toJson, ofJson?, variant?_record]
        rfl
      rw [hread]
      exact (x.restores.map float).congr (by simp [doubles]) (by simp [doubles])
  | @str s _ =>
      refine restores_of_depth (by rw [toJson, depth_case]; rfl) (ofJson?_zero _) fun room => ?_
      have hread : ofJson? (room + 1) (toJson (str s)) = some (str s) := by
        rw [toJson, ofJson?, variant?_record]
        rfl
      rw [hread]
      exact restored_of_no_doubles rfl
  | @ints ns hns =>
      refine restores_of_depth ?_ (ofJson?_container (by simp) _) fun room => ?_
      · rw [toJson, depth_case, depth_arr_map fun _ => rfl]
      have hread : ofJson? (room + 2) (toJson (ints ns)) =
          (listOf? Json.asInt? (arr (ns.map Json.int))).map ints := by
        rw [toJson, ofJson?, variant?_record]
        rfl
      rw [hread, listOf?_arr_map fun n hn => asInt?_int (hns.2 n hn)]
      exact restored_of_no_doubles rfl
  | @floats xs _ =>
      refine restores_of_depth ?_ (ofJson?_container (by simp) _) fun room => ?_
      · rw [toJson, depth_case, depth_arr_map Double.depth_toJson]
      have hread : ofJson? (room + 2) (toJson (floats xs)) =
          (listOf? asDouble? (arr (xs.map Double.toJson))).map floats := by
        rw [toJson, ofJson?, variant?_record]
        rfl
      rw [hread]
      exact (Restores.list _ _ _ _ fun x _ => x.restores).map floats
  | @strs ss _ =>
      refine restores_of_depth ?_ (ofJson?_container (by simp) _) fun room => ?_
      · rw [toJson, depth_case, depth_texts]
      have hread : ofJson? (room + 2) (toJson (strs ss)) = (texts ss).texts?.map strs := by
        rw [toJson, ofJson?, variant?_record]
        rfl
      rw [hread, texts?_texts]
      exact restored_of_no_doubles rfl
  | @map d ho _ _ _ ih => exact restores_map ho ih

end Attr

/-! ## Tensors and shapes -/

namespace Tensor

/-- The limit on nesting is not reached; the finiteness of its numbers decides. -/
theorem restores_toJson {t : Tensor} (h : t.Storable) : Restores (ofJson? t.toJson) t
    (∀ x ∈ t.data, x.isFinite = true) (∀ x ∈ t.data, x.ReadBack) := by
  have hfields : t.toJson.fields? ["shape", "data"] =
      some [some (record [("dims", arr (t.dims.map .size))]),
        some (arr (t.data.map Single.toJson))] :=
    fields?_record rfl (by decide)
  have hdims : dimsOfJson? (record [("dims", arr (t.dims.map .size))]) = some t.dims := by
    have hfields : (record [("dims", arr (t.dims.map .size))]).fields? ["dims"] =
        some [some (arr (t.dims.map .size))] :=
      fields?_record rfl (by decide)
    rw [dimsOfJson?, hfields]
    exact listOf?_arr_map fun n hn => asSize?_size (h.dims.2 n hn)
  have hread : ofJson? t.toJson =
      (listOf? asSingle? (arr (t.data.map Single.toJson))).map fun data => ⟨t.dims, data⟩ := by
    rw [ofJson?, hfields]
    simp only [Option.bind_eq_bind, Option.bind_some, required?, hdims]
    cases listOf? asSingle? (arr (t.data.map Single.toJson)) <;> rfl
  have hdata := Restores.list asSingle? Single.toJson _ _ fun x (_ : x ∈ t.data) =>
    x.restores
  rw [hread]
  exact hdata.map fun data => (⟨t.dims, data⟩ : Tensor)

theorem spelled_toJson (t : Tensor) : t.toJson.Spelled := by
  refine spelled_record ?_
  simp only [List.forall_mem_cons]
  refine ⟨spelled_record ?_, spelled_arr_map fun x _ => x.spelled_toJson, by simp⟩
  simpa using spelled_arr_map fun n _ => spelled_size n

theorem depth_toJson_le (t : Tensor) : t.toJson.depth ≤ 3 := by
  refine depth_record_le.2 ?_
  simp only [List.forall_mem_cons]
  refine ⟨?_, ?_, by simp⟩
  · rw [depth_case, depth_arr_map fun _ => rfl]
  · rw [depth_arr_map Single.depth_toJson]
    decide

end Tensor

theorem TensorShape.ofJson?_toJson {s : TensorShape} (h : s.Storable) :
    ofJson? s.toJson = some s := by
  rw [ofJson?, toJson, listOf?_arr_map fun n hn => asInt?_int (h.2 n hn)]
  rfl

theorem TensorShape.spelled_toJson (s : TensorShape) : s.toJson.Spelled :=
  spelled_arr_map fun n _ => spelled_int n

theorem TensorShape.depth_toJson (s : TensorShape) : s.toJson.depth = 1 :=
  depth_arr_map (fun _ => rfl) s.dims

theorem Shapes.ofJson?_toJson {s : Shapes} (h : s.Storable) : ofJson? s.toJson = some s := by
  cases s with
  | tensor s =>
      rw [ofJson?, toJson, variant?_record]
      exact congrArg (Option.map tensor) (TensorShape.ofJson?_toJson h)
  | tuple items =>
      rw [ofJson?, toJson, variant?_record]
      exact congrArg (Option.map tuple)
        (listOf?_arr_map fun s hs => TensorShape.ofJson?_toJson (h.2 s hs))

theorem Shapes.spelled_toJson (s : Shapes) : s.toJson.Spelled := by
  cases s with
  | tensor s => exact spelled_record (by simpa using s.spelled_toJson)
  | tuple items =>
      exact spelled_record (by simpa using spelled_arr_map fun s _ => s.spelled_toJson)

theorem Shapes.depth_toJson_le (s : Shapes) : s.toJson.depth ≤ 3 := by
  cases s with
  | tensor s =>
      rw [toJson, depth_case]
      exact Nat.succ_le_succ (s.depth_toJson.le.trans (by decide))
  | tuple items =>
      rw [toJson, depth_case]
      exact Nat.succ_le_succ
        (depth_arr_le.2 (List.forall_mem_map.2 fun s _ => s.depth_toJson.le))

end Dataflow
