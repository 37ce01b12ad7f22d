import Dataflow.Proofs.Dict
import Dataflow.Proofs.Graph.Validity
import Dataflow.Proofs.Storage.Storable
import Dataflow.Storage.Binary

/-!
# What is read can be stored

Whatever bytes a graph or a partition is read from, it is storable: words read no larger number than
they hold, every length is a word, and the entries of a dictionary are put in order. The values that
can be stored are thus the ones that bytes can be read as.
-/

namespace Dataflow

open Storable

namespace Reader

variable {α β : Type} {rd : Reader α} {f : α → Reader β} {P : α → Prop} {Q : β → Prop}

def Yields (rd : Reader α) (P : α → Prop) : Prop :=
  ∀ bytes x rest, rd bytes = .ok (x, rest) → P x

theorem yields_pure {x : α} (h : P x) : (pure x : Reader α).Yields P := by
  intro bytes y rest hok
  cases hok
  exact h

theorem yields_throw (e : BinaryError) : (throw e : Reader α).Yields P := by
  intro bytes x rest hok
  cases hok

theorem yields_true (rd : Reader α) : rd.Yields fun _ => True := fun _ _ _ _ => trivial

theorem Yields.bind (h : rd.Yields P) (hf : ∀ x, P x → (f x).Yields Q) : (rd >>= f).Yields Q := by
  intro bytes y rest hok
  obtain ⟨⟨x, rest'⟩, hx, hy⟩ := Outcome.bind_eq_ok.1 hok
  exact hf x (h bytes x rest' hx) rest' y rest hy

theorem Yields.map {g : α → β} (h : rd.Yields P) (hg : ∀ x, P x → Q (g x)) :
    (do return g (← rd) : Reader β).Yields Q :=
  h.bind fun x hx => yields_pure (hg x hx)

theorem yields_bytes (n : Nat) : (Reader.bytes n).Yields fun bs => bs.length = n := by
  intro bs x rest hok
  rw [Reader.bytes] at hok
  split at hok
  · cases hok
  · cases hok
    rw [List.length_take]
    omega

theorem yields_word (k : Nat) : (word k).Yields fun n => n < Nat.pow 256 k := by
  induction k with
  | zero => exact yields_pure (Nat.lt_succ_self 0)
  | succ k ih =>
      refine (yields_true byte).bind fun low _ => ih.map fun high hhigh => ?_
      show low.toNat + 256 * high < Nat.pow 256 k * 256
      have hlow := low.toNat_lt
      omega

theorem yields_many {item : Reader α} (h : item.Yields P) (n : Nat) :
    (many item n).Yields fun xs => xs.length = n ∧ ∀ x ∈ xs, P x := by
  induction n with
  | zero => exact yields_pure ⟨rfl, List.forall_mem_nil P⟩
  | succ n ih =>
      refine h.bind fun x hx => ih.map fun xs hxs => ?_
      exact ⟨congrArg (· + 1) hxs.1, List.forall_mem_cons.2 ⟨hx, hxs.2⟩⟩

end Reader

namespace Codec

open Reader

variable {α β : Type} {c : Codec α} {a : Codec α} {b : Codec β} {P : α → Prop} {Q : β → Prop}

def Yields (c : Codec α) (P : α → Prop) : Prop := c.decode.Yields P

theorem Yields.read (h : c.Yields P) {bytes : List UInt8} {x : α} (hx : c.read bytes = .ok x) :
    P x := by
  obtain ⟨⟨y, rest⟩, hok, rfl⟩ := Outcome.map_eq_ok.1 hx
  exact h bytes y rest hok

theorem Yields.via {pack : β → α} {unpack : α → β} (h : c.Yields P)
    (hu : ∀ x, P x → Q (unpack x)) : (c.via pack unpack).Yields Q :=
  h.map hu

theorem Yields.pair (ha : a.Yields P) (hb : b.Yields Q) :
    (pair a b).Yields fun p => P p.1 ∧ Q p.2 :=
  ha.bind fun _ hx => hb.map fun _ hy => ⟨hx, hy⟩

theorem yields_true (c : Codec α) : c.Yields fun _ => True := Reader.yields_true _

theorem yields_size : size.Yields Count := yields_word 8

theorem yields_int : int.Yields Integer := by
  refine yields_size.via fun n hn => ?_
  have hlimit : Size.limit = 2 ^ 64 := rfl
  have hsigned : Size.signedLimit = 2 ^ 63 := rfl
  rw [Count, hlimit] at hn
  rw [Integer, Size.toSigned, hlimit, hsigned]
  split <;> omega

theorem toUTF8_of_fromUTF8? {bytes : ByteArray} {s : String}
    (h : String.fromUTF8? bytes = some s) : s.toUTF8 = bytes := by
  unfold String.fromUTF8? at h
  split at h
  · cases h
    rfl
  · cases h

theorem yields_text : text.Yields Text := by
  refine (yields_word 8).bind fun n hn => (yields_bytes n).bind fun bs hbs => ?_
  split
  · next s hs =>
    refine yields_pure ?_
    show s.toUTF8.size < Size.limit
    rw [toUTF8_of_fromUTF8? hs]
    show bs.length < Size.limit
    rwa [hbs]
  · exact yields_throw _

theorem Yields.items (h : c.Yields P) : (list c).Yields (Items P) := by
  refine (yields_word 8).bind fun n hn bytes xs rest hok => ?_
  obtain ⟨hlength, hitems⟩ := yields_many h n bytes xs rest hok
  exact ⟨hlength.symm ▸ hn, hitems⟩

theorem Yields.option (h : c.Yields P) : (option c).Yields fun o => ∀ x ∈ o, P x := by
  refine (Reader.yields_true byte).bind fun mark _ => ?_
  split
  · exact yields_pure fun x hx => nomatch hx
  · split
    · exact h.map fun x hx y hy => Option.some.inj hy ▸ hx
    · exact yields_throw _

theorem entries_ofList {es : List (String × α)} (h : Items (fun e => Text e.1 ∧ P e.2) es) :
    Entries P (Dict.ofList es) := by
  have hentry : ∀ e ∈ (Dict.ofList es).entries, Text e.1 ∧ P e.2 := fun e he =>
    h.2 e (Dict.mem_of_mem_entries_ofList he)
  exact {
    ordered := Dict.ordered_ofList es
    length := Nat.lt_of_le_of_lt (Dict.length_entries_ofList_le es) h.1
    keys := fun e he => (hentry e he).1
    values := fun e he => (hentry e he).2 }

theorem Yields.entries (h : c.Yields P) : (dict c).Yields (Entries P) :=
  (yields_text.pair h).items.via fun _ hes => entries_ofList hes

end Codec

/-! ## Attributes and records -/

open Codec

namespace Attr

theorem yields_decodeMap {item : Reader Attr} (h : item.Yields Attr.Storable) :
    (decodeMap item).Yields (Entries Attr.Storable) := by
  refine (Reader.yields_word 8).bind fun n hn => ?_
  have hentry : (do
      let k ← text.decode
      let x ← item
      return (k, x) : Reader (String × Attr)).Yields fun e => Text e.1 ∧ e.2.Storable :=
    yields_text.bind fun _ hk => h.map fun _ hx => ⟨hk, hx⟩
  refine (Reader.yields_many hentry n).map fun es hes => entries_ofList ⟨?_, hes.2⟩
  show es.length < Size.limit
  rwa [hes.1]

/-- An attribute that is read is storable, however deep it nests. -/
theorem yields_decode (depth : Nat) : (decode depth).Yields Attr.Storable := by
  induction depth with
  | zero => exact Reader.yields_throw _
  | succ depth ih =>
      refine (Reader.yields_word 4).bind fun tag _ => ?_
      split
      · exact (Codec.yields_true _).map fun b _ => .bool b
      · exact yields_int.map fun _ hn => .int hn
      · exact (Codec.yields_true _).map fun x _ => .float x
      · exact yields_text.map fun _ hs => .str hs
      · exact yields_int.items.map fun _ hns => .ints hns
      · exact (Codec.yields_true _).items.map fun _ hxs => .floats hxs.1
      · exact yields_text.items.map fun _ hss => .strs hss
      · exact (yields_decodeMap ih).map fun _ h => .map h.ordered h.length h.keys h.values
      · exact Reader.yields_throw _

theorem yields_codec : codec.Yields Attr.Storable := fun bytes a rest hok =>
  yields_decode bytes.length bytes a rest hok

end Attr

theorem Tensor.yields_codec : Tensor.codec.Yields Tensor.Storable :=
  (yields_size.items.pair (Codec.yields_true _).items).via fun _ h => ⟨h.1, h.2.1⟩

theorem TensorShape.yields_codec : TensorShape.codec.Yields TensorShape.Storable :=
  yields_int.items.via fun _ h => h

theorem Shapes.yields_codec : Shapes.codec.Yields Shapes.Storable := by
  refine (Reader.yields_word 4).bind fun tag _ => ?_
  split
  · exact TensorShape.yields_codec.map fun _ hs => hs
  · exact TensorShape.yields_codec.items.map fun _ hs => hs
  · exact Reader.yields_throw _

theorem Codec.yields_texts : texts.Yields (Items Text) := yields_text.items

theorem Node.yields_codec : Node.codec.Yields Node.Storable := by
  refine ((yields_text.pair <| yields_texts.pair <| Shapes.yields_codec.pair <| yields_texts.pair <|
    yields_texts.pair <| yields_texts.pair <| Attr.yields_codec.entries.pair <|
    Tensor.yields_codec.items.pair <| yields_text.option.pair <|
    yields_text.pair (Codec.yields_true _))).via ?_
  rintro _ ⟨name, types, shapes, bottoms, tops, layer, attrs, data, subgraph, target, -⟩
  exact { name, types, shapes, bottoms, tops, layer, attrs, data, subgraph, target }

theorem Artifact.yields_codec : Artifact.codec.Yields Artifact.Storable :=
  (yields_text.entries.pair yields_text.entries).via fun _ h => ⟨h.1, h.2⟩

theorem CompilerOutput.yields_codec : CompilerOutput.codec.Yields CompilerOutput.Storable :=
  Artifact.yields_codec.entries.via fun _ h => h

theorem Partition.yields_codec : Partition.codec.Yields Partition.Storable := by
  refine (yields_text.pair <| yields_text.pair <| yields_texts.pair <| yields_texts.pair <|
    yields_texts.pair <| yields_texts.pair <| Node.yields_codec.items.pair <|
    yields_texts.entries.pair TensorShape.yields_codec.items).via ?_
  rintro _ ⟨id, target, bottoms, tops, inputNames, outputNames, interior, readers, shapes⟩
  exact { id, target, bottoms, tops, inputNames, outputNames, interior, readers, shapes }

/-! ## Graphs -/

/-- The graph that bytes are read as is storable. -/
theorem Graph.storable_of_ofBytes {bytes : List UInt8} {g : Graph} (h : ofBytes bytes = .ok g) :
    g.Storable := by
  have hcodec : StoredGraph.codec.Yields fun s => Text s.name ∧ Items Node.Storable s.nodes ∧
      ∀ o ∈ s.compilerOutput, o.Storable :=
    (yields_text.pair <| yields_text.pair <| Node.yields_codec.items.pair
      CompilerOutput.yields_codec.option).via fun _ h => h.2
  unfold ofBytes at h
  split at h
  · cases h
  · next s hs =>
    obtain ⟨hname, hnodes, houtput⟩ := hcodec.read hs
    unfold StoredGraph.toGraph at h
    split at h
    · obtain ⟨hn, hns, ho⟩ := Graph.ofNodes_eq_ok (Outcome.mapError_eq_ok.1 h)
      rw [← hn] at hname
      rw [← hns] at hnodes
      rw [← ho] at houtput
      exact ⟨hname, hnodes, houtput⟩
    · cases h

end Dataflow
