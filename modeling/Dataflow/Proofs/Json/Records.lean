import Dataflow.Json.Basic
import Dataflow.Proofs.Dict
import Dataflow.Proofs.Json.Lexing
import Dataflow.Storage.Json

/-!
# Records, lists and dictionaries

A record with distinct names gives back the value of every field, and an object with one member
gives back this member. Lists and dictionaries are read item by item: reading succeeds exactly when
it does for every item, and gives back the list whose items are all given back. Numbers are
literals throughout such a value when they are in its parts, and it nests one deeper than these.
-/

namespace Dataflow

/-- Reading has succeeded exactly when `legible` holds, and has given `x` back when `exact` holds as
well. -/
structure Restores {α : Type} (read : Option α) (x : α) (legible exact : Prop) : Prop where
  accepts : read.isSome = true ↔ legible
  same : legible → exact → read = some x

namespace Json

variable {α β γ δ : Type}

/-! ## Passes over lists -/

theorem isSome_mapM {f : α → Option β} {xs : List α} :
    (xs.mapM f).isSome = true ↔ ∀ x ∈ xs, (f x).isSome = true := by
  induction xs with
  | nil => simp
  | cons x xs ih =>
      rw [List.forall_mem_cons, ← ih, List.mapM_cons]
      cases f x with
      | none => simp
      | some y => cases xs.mapM f <;> simp

theorem mapM_map_eq_some {f : β → Option γ} {g : α → β} {h : α → γ} {xs : List α}
    (hf : ∀ x ∈ xs, f (g x) = some (h x)) : (xs.map g).mapM f = some (xs.map h) := by
  induction xs with
  | nil => rfl
  | cons x xs ih =>
      rw [List.forall_mem_cons] at hf
      simp [hf.1, ih hf.2]

theorem map_of_mapM_map {f : β → Option γ} {g : α → β} {h : γ → δ} {k : α → δ} {xs : List α}
    {ys : List γ} (hys : (xs.map g).mapM f = some ys)
    (hk : ∀ x ∈ xs, ∀ y, f (g x) = some y → h y = k x) : ys.map h = xs.map k := by
  induction xs generalizing ys with
  | nil =>
      cases hys
      rfl
  | cons x xs ih =>
      rw [List.forall_mem_cons] at hk
      rw [List.map_cons, List.mapM_cons] at hys
      obtain ⟨y, hy, hys⟩ := Option.bind_eq_some_iff.1 hys
      obtain ⟨ys, hrest, hys⟩ := Option.bind_eq_some_iff.1 hys
      cases hys
      rw [List.map_cons, List.map_cons, hk.1 y hy, ih hrest hk.2]

/-! ## Records -/

theorem members?_record (ms : List (String × Json)) : (record ms).members? = some ms := by
  have hmap : (ms.map fun m => (some m.1, m.2)).mapM
      (fun m : Option String × Json => m.1.map fun k => (k, m.2)) = some (ms.map id) :=
    mapM_map_eq_some fun _ _ => rfl
  rwa [List.map_id] at hmap

theorem variant?_record (tag : String) (j : Json) :
    (record [(tag, j)]).variant? = some (tag, j) := by
  rw [variant?, members?_record]

theorem filter_fst_eq {ms : List (String × Json)} (h : (ms.map Prod.fst).Nodup)
    {m : String × Json} (hm : m ∈ ms) : ms.filter (·.1 = m.1) = [m] := by
  induction ms with
  | nil => cases hm
  | cons m' ms ih =>
      rw [List.map_cons, List.nodup_cons] at h
      rcases List.mem_cons.1 hm with rfl | hm
      · have hrest : ms.filter (·.1 = m.1) = [] := by
          refine List.filter_eq_nil_iff.2 fun m' hm' he => h.1 ?_
          exact List.mem_map.2 ⟨m', hm', of_decide_eq_true he⟩
        rw [List.filter_cons_of_pos (by simp), hrest]
      · have hne : ¬m'.1 = m.1 := fun he => h.1 (he ▸ List.mem_map.2 ⟨m, hm, rfl⟩)
        rw [List.filter_cons_of_neg (by simpa using hne), ih h.2 hm]

/-- The fields of a record in the order of its names. -/
theorem fields?_record {ms : List (String × Json)} {names : List String}
    (hnames : ms.map Prod.fst = names) (h : names.Nodup) :
    (record ms).fields? names = some (ms.map fun m => some m.2) := by
  subst hnames
  have hmembers := members?_record ms
  rw [record] at hmembers ⊢
  rw [fields?, hmembers, Option.bind_eq_bind, Option.bind_some]
  · refine mapM_map_eq_some fun m hm => ?_
    rw [filter_fst_eq h hm]
  · exact fun _ h => nomatch h

/-! ## Lists -/

theorem listOf?_arr_map {f : Json → Option α} {g : α → Json} {xs : List α}
    (h : ∀ x ∈ xs, f (g x) = some x) : (arr (xs.map g)).listOf? f = some xs := by
  have hmap := mapM_map_eq_some (h := id) h
  rwa [List.map_id] at hmap

theorem texts?_texts (ss : List String) : (texts ss).texts? = some ss :=
  listOf?_arr_map fun _ _ => rfl

theorem asText?_text (s : String) : (text s).asText? = some s := rfl

end Json

namespace Restores

open Json

variable {α β : Type} {read : Option α} {x : α} {legible exact : Prop}

theorem some (x : α) : Restores (some x) x True True :=
  ⟨iff_of_true rfl trivial, fun _ _ => rfl⟩

theorem congr {legible' exact' : Prop} (h : Restores read x legible exact)
    (hl : legible' ↔ legible) (he : exact' → exact) : Restores read x legible' exact' :=
  ⟨h.accepts.trans hl.symm, fun hl' he' => h.same (hl.1 hl') (he he')⟩

theorem map (h : Restores read x legible exact) (c : α → β) :
    Restores (read.map c) (c x) legible exact := by
  refine ⟨?_, fun hl he => ?_⟩
  · rw [Option.isSome_map, h.accepts]
  · rw [h.same hl he, Option.map_some]

section Items

variable (f : Json → Option α) (g : α → Json) (legible exact : α → Prop)

theorem list {xs : List α} (h : ∀ x ∈ xs, Restores (f (g x)) x (legible x) (exact x)) :
    Restores (listOf? f (arr (xs.map g))) xs (∀ x ∈ xs, legible x) (∀ x ∈ xs, exact x) := by
  refine ⟨?_, fun hl he => listOf?_arr_map fun x hx => (h x hx).same (hl x hx) (he x hx)⟩
  rw [listOf?, isSome_mapM, List.forall_mem_map]
  exact forall₂_congr fun x hx => (h x hx).accepts

theorem dict {d : Dict α} (ho : d.Ordered)
    (h : ∀ e ∈ d.entries, Restores (f (g e.2)) e.2 (legible e.2) (exact e.2)) :
    Restores (Dict.ofJson? f (d.toJson g)) d (∀ e ∈ d.entries, legible e.2)
      (∀ e ∈ d.entries, exact e.2) := by
  have hread : Dict.ofJson? f (d.toJson g) = ((d.entries.map fun e => (e.1, g e.2)).mapM
      fun m => (f m.2).map fun x => (m.1, x)).map .ofList := by
    rw [Dict.ofJson?, Dict.toJson, members?_record, Option.map_eq_bind]
    rfl
  refine ⟨?_, fun hl he => ?_⟩
  · rw [hread, Option.isSome_map, isSome_mapM, List.forall_mem_map]
    refine forall₂_congr fun e hm => ?_
    rw [Option.isSome_map, (h e hm).accepts]
  · rw [hread, mapM_map_eq_some (h := id), List.map_id, Option.map_some, Dict.ofList_entries ho]
    intro e hm
    rw [(h e hm).same (hl e hm) (he e hm)]
    rfl

end Items

end Restores

theorem Dict.ofJson?_toJson {α : Type} {f : Json → Option α} {g : α → Json} {d : Dict α}
    (ho : d.Ordered) (h : ∀ e ∈ d.entries, f (g e.2) = some e.2) :
    ofJson? f (d.toJson g) = some d := by
  have hread := Restores.dict f g (fun _ => True) (fun _ => True) ho fun e he => by
    rw [h e he]
    exact .some e.2
  exact hread.same (fun _ _ => trivial) fun _ _ => trivial

/-! ## Nesting and numbers -/

namespace Json

theorem depthItems_le {js : List Json} {k : Nat} : depthItems js ≤ k ↔ ∀ j ∈ js, j.depth ≤ k := by
  induction js with
  | nil => simp [depthItems]
  | cons j js ih => rw [depthItems, Nat.max_le, ih, List.forall_mem_cons]

theorem depthMembers_le {ms : List (Option String × Json)} {k : Nat} :
    depthMembers ms ≤ k ↔ ∀ m ∈ ms, m.2.depth ≤ k := by
  induction ms with
  | nil => simp [depthMembers]
  | cons m ms ih => rw [depthMembers, Nat.max_le, ih, List.forall_mem_cons]

theorem depth_arr_le {js : List Json} {k : Nat} :
    (arr js).depth ≤ k + 1 ↔ ∀ j ∈ js, j.depth ≤ k := by
  rw [depth, Nat.add_comm, Nat.add_le_add_iff_right, depthItems_le]

theorem depth_record_le {ms : List (String × Json)} {k : Nat} :
    (record ms).depth ≤ k + 1 ↔ ∀ m ∈ ms, m.2.depth ≤ k := by
  rw [record, depth, Nat.add_comm, Nat.add_le_add_iff_right, depthMembers_le, List.forall_mem_map]

theorem depth_case (tag : String) (payload : Json) :
    (record [(tag, payload)]).depth = payload.depth + 1 := by
  simp [record, depth, depthMembers, Nat.add_comm]

theorem depth_arr_map {f : α → Json} (h : ∀ x, (f x).depth = 0) (xs : List α) :
    (arr (xs.map f)).depth = 1 := by
  have hle : (arr (xs.map f)).depth ≤ 0 + 1 :=
    depth_arr_le.2 (List.forall_mem_map.2 fun x _ => (h x).le)
  rw [depth] at hle ⊢
  omega

theorem depth_texts (ss : List String) : (texts ss).depth = 1 := depth_arr_map (fun _ => rfl) ss

theorem spelled_record {ms : List (String × Json)} (h : ∀ m ∈ ms, m.2.Spelled) :
    (record ms).Spelled :=
  .obj (List.forall_mem_map.2 h)

theorem spelled_arr_map {f : α → Json} {xs : List α} (h : ∀ x ∈ xs, (f x).Spelled) :
    (arr (xs.map f)).Spelled :=
  .arr (List.forall_mem_map.2 h)

theorem spelled_text (s : String) : (text s).Spelled := .str _

theorem spelled_texts (ss : List String) : (texts ss).Spelled :=
  spelled_arr_map fun s _ => spelled_text s

end Json

end Dataflow
