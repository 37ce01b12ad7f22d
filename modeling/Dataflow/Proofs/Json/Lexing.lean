import Dataflow.Json.Lexer
import Dataflow.Json.Printer
import Mathlib.Data.List.TakeDrop
import Mathlib.Data.List.TakeWhile

/-!
# Tokens of written values

The lexer takes a written value for the tokens that the value consists of, whatever stands behind
it, as long as this does not go on with the last word of the value. A style may put any blanks
between the tokens. Characters inside a string are taken one by one, each back from the escape that
it is written as; a number is one word, since no character of its literal ends a word.
-/

namespace Dataflow.Json

structure Style.Blank (style : Style) : Prop where
  gap : ∀ level, ∀ c ∈ style.gap level, Mode.isBlank c = true
  colon : ∃ blanks, style.colon = ':' :: blanks ∧ ∀ c ∈ blanks, Mode.isBlank c = true

theorem Style.blank_pretty : pretty.Blank where
  gap level c hc := by
    rcases List.mem_cons.1 hc with rfl | hc
    · rfl
    · rw [List.eq_of_mem_replicate hc]
      rfl
  colon := ⟨[' '], rfl, by simp [Mode.isBlank]⟩

/-! ## Numbers as words -/

namespace Mode

theorem isWordChar_of_isDigit {c : Char} (h : c.isDigit = true) : isWordChar c = true := by
  simp [isWordChar, Char.isAlphanum, h]

end Mode

namespace Number

open Mode

theorem digits_eq (cs : List Char) :
    digits cs = (cs.takeWhile Char.isDigit, cs.dropWhile Char.isDigit) :=
  List.span_eq_takeWhile_dropWhile Char.isDigit cs

theorem forall_mem_of_digits {p : Char → Prop} {cs : List Char} (hp : ∀ c, c.isDigit → p c)
    (h : ∀ c ∈ (digits cs).2, p c) : ∀ c ∈ cs, p c := by
  intro c hc
  rw [digits_eq] at h
  rw [← List.takeWhile_append_dropWhile (p := Char.isDigit) (l := cs), List.mem_append] at hc
  exact hc.elim (fun hc => hp c (List.mem_takeWhile_imp hc)) (h c)

theorem isWordChar_of_exponentOf? {cs : List Char} {e : Option (Bool × List Char)}
    (h : exponentOf? cs = some e) : ∀ c ∈ cs, isWordChar c = true := by
  have hdigits : ∀ {negative : Bool} {ds : List Char},
      (if ds ≠ [] ∧ ds.all Char.isDigit then some (some (negative, ds)) else none) = some e →
      ∀ c ∈ ds, isWordChar c = true := by
    intro negative ds hds c hc
    split at hds
    · next hall => exact isWordChar_of_isDigit (List.all_eq_true.1 hall.2 c hc)
    · cases hds
  match cs with
  | [] => simp
  | d :: ds =>
      simp only [exponentOf?] at h
      split at h
      · next hd =>
        rw [List.forall_mem_cons]
        refine ⟨by rcases hd with rfl | rfl <;> rfl, ?_⟩
        split at h
        · exact List.forall_mem_cons.2 ⟨rfl, hdigits h⟩
        · exact List.forall_mem_cons.2 ⟨rfl, hdigits h⟩
        · exact hdigits h
      · cases h

theorem isWordChar_of_fractionOf? {cs rest : List Char} {f : Option (List Char)}
    (h : fractionOf? cs = some (f, rest)) (hrest : ∀ c ∈ rest, isWordChar c = true) :
    ∀ c ∈ cs, isWordChar c = true := by
  rw [fractionOf?.eq_def] at h
  split at h
  · simp only at h
    split at h
    · cases h
    · cases h
      exact List.forall_mem_cons.2
        ⟨rfl, forall_mem_of_digits (fun _ => isWordChar_of_isDigit) hrest⟩
  · cases h
    exact hrest

def sign (cs : List Char) : Bool × List Char :=
  match cs with
  | '-' :: r => (true, r)
  | _ => (false, cs)

def unsigned? (negative : Bool) (cs : List Char) : Option Number := do
  let (whole, cs) := digits cs
  guard (properWhole whole)
  let (fraction, cs) ← fractionOf? cs
  let exponent ← exponentOf? cs
  return ⟨negative, whole, fraction, exponent⟩

theorem ofLiteral?_eq (cs : List Char) : ofLiteral? cs = unsigned? (sign cs).1 (sign cs).2 := rfl

theorem sign_of_head? {cs : List Char} (h : cs.head? ≠ some '-') : sign cs = (false, cs) := by
  rw [sign]
  rintro r rfl
  exact h rfl

theorem unsigned?_eq_some {negative : Bool} {cs : List Char} {n : Number} :
    unsigned? negative cs = some n ↔ properWhole (digits cs).1 = true ∧
      ∃ f rest e, fractionOf? (digits cs).2 = some (f, rest) ∧ exponentOf? rest = some e ∧
        ⟨negative, (digits cs).1, f, e⟩ = n := by
  rw [unsigned?]
  generalize digits cs = parts
  obtain ⟨whole, cs⟩ := parts
  dsimp only
  by_cases hw : properWhole whole = true
  · have hguard : (guard (properWhole whole = true) : Option Unit) = some () := if_pos hw
    rw [hguard]
    simp [hw, Option.bind_eq_some_iff]
  · have hguard : (guard (properWhole whole = true) : Option Unit) = none := if_neg hw
    rw [hguard]
    exact iff_of_false (Option.some_ne_none n).symm fun h => hw h.1

theorem isWordChar_of_unsigned? {negative : Bool} {cs : List Char} {n : Number}
    (h : unsigned? negative cs = some n) : cs ≠ [] ∧ ∀ c ∈ cs, isWordChar c = true := by
  obtain ⟨hwhole, fraction, rest, exponent, hfraction, hexponent, -⟩ := unsigned?_eq_some.1 h
  refine ⟨?_, forall_mem_of_digits (fun _ => isWordChar_of_isDigit)
    (isWordChar_of_fractionOf? hfraction (isWordChar_of_exponentOf? hexponent))⟩
  rintro rfl
  cases hwhole

theorem isWordChar_of_ofLiteral? {cs : List Char} {n : Number} (h : ofLiteral? cs = some n) :
    cs ≠ [] ∧ ∀ c ∈ cs, isWordChar c = true := by
  by_cases hsign : cs.head? = some '-'
  · obtain ⟨ds, rfl⟩ := List.head?_eq_some_iff.1 hsign
    exact ⟨List.cons_ne_nil _ _,
      List.forall_mem_cons.2 ⟨rfl, (isWordChar_of_unsigned? h).2⟩⟩
  · rw [ofLiteral?_eq, sign_of_head? hsign] at h
    exact isWordChar_of_unsigned? h

end Number

namespace Mode

theorem wordToken?_of_ofLiteral? {cs : List Char} {n : Number}
    (h : Number.ofLiteral? cs = some n) : wordToken? cs = some (.num (String.ofList cs)) := by
  rw [wordToken?, if_neg, if_neg, if_neg, h, Option.map_some]
  all_goals
    rintro rfl
    cases h

/-! ## Steps of the lexer -/

/-- From `m` on, the characters `cs` complete the tokens `ts` and lead to `m'`. -/
def Reads (m : Mode) (cs : List Char) (ts : List Token) (m' : Mode) : Prop :=
  ∀ rest, m.run (cs ++ rest) = (m'.run rest).map (ts ++ ·)

namespace Reads

variable {m m' m'' : Mode} {c : Char} {cs ds : List Char} {ts us : List Token}

theorem nil (m : Mode) : Reads m [] [] m := fun rest => by simp

theorem append (h : Reads m cs ts m') (h' : Reads m' ds us m'') :
    Reads m (cs ++ ds) (ts ++ us) m'' := by
  intro rest
  rw [List.append_assoc, h, h', Option.map_map]
  congr 1
  funext vs
  exact (List.append_assoc ts us vs).symm

theorem of_step (h : m.step c = some (m', ts)) : Reads m [c] ts m' := by
  intro rest
  simp only [List.singleton_append, run, h, Option.bind_eq_bind, Option.bind_some]
  cases m'.run rest <;> rfl

theorem cons (h : m.step c = some (m', ts)) (h' : Reads m' cs us m'') :
    Reads m (c :: cs) (ts ++ us) m'' :=
  (of_step h).append h'

theorem blanks (h : ∀ c ∈ cs, isBlank c = true) : Reads between cs [] between := by
  induction cs with
  | nil => exact nil _
  | cons c cs ih =>
      rw [List.forall_mem_cons] at h
      have hstep : between.step c = some (between, []) := if_pos h.1
      exact cons hstep (ih h.2)

end Reads

/-! ## Strings -/

theorem hexValue?_digitChar : ∀ n < 0x10, hexValue? (Nat.digitChar n) = some n := by decide

theorem hex_of_lt_sixteen : ∀ n < 0x10, Text.hex n = [Nat.digitChar n] := by decide

theorem hex_of_lt_thirtyTwo :
    ∀ n < 0x20, 0x10 ≤ n → Text.hex n = ['1', Nat.digitChar (n - 0x10)] := by
  decide

variable {seen : List Nat}

theorem step_backslash : (string seen).step '\\' = some (escape seen, []) := rfl

theorem reads_escape {c : Char} {n : Nat} (hu : c ≠ 'u') (h : escaped? c = some n) :
    Reads (string seen) ['\\', c] [] (string (n :: seen)) := by
  have hstep : (escape seen).step c = some (string (n :: seen), []) := by
    rw [step, if_neg hu, h, Option.map_some]
  exact .cons step_backslash (.of_step hstep)

theorem reads_unicode (seen : List Nat) {a b c d : Char} {i j k l : Nat} (ha : hexValue? a = some i)
    (hb : hexValue? b = some j) (hc : hexValue? c = some k) (hd : hexValue? d = some l) :
    Reads (string seen) ['\\', 'u', a, b, c, d] []
      (string ((((i * 16 + j) * 16 + k) * 16 + l) :: seen)) := by
  have hu : (escape seen).step 'u' = some (unicode seen 0 0, []) := rfl
  have hdigit : ∀ {x : Char} {n digits value : Nat}, hexValue? x = some n → digits < 3 →
      (unicode seen digits value).step x =
        some (unicode seen (digits + 1) (value * 16 + n), []) := by
    intro x n digits value h hlt
    simp [step, h, Nat.ne_of_lt hlt]
  have hlast : ∀ {x : Char} {n value : Nat}, hexValue? x = some n →
      (unicode seen 3 value).step x = some (string ((value * 16 + n) :: seen), []) := by
    intro x n value h
    simp [step, h]
  have hread := Reads.cons step_backslash <| .cons hu <| .cons (hdigit ha (by decide)) <|
    .cons (hdigit hb (by decide)) <| .cons (hdigit hc (by decide)) <| .of_step (hlast hd)
  simpa using hread

theorem reads_plain {c : Char} (hquote : c ≠ '"') (hslash : c ≠ '\\') (h : ¬c.toNat < 0x20) :
    Reads (string seen) [c] [] (string (c.toNat :: seen)) :=
  .of_step (by rw [step, if_neg hquote, if_neg hslash, if_neg h])

theorem reads_escapeChar (seen : List Nat) (c : Char) :
    Reads (string seen) (escapeChar c) [] (string (c.toNat :: seen)) := by
  rw [escapeChar]
  split
  · next h => subst h; exact reads_escape (by decide) rfl
  split
  · next h => subst h; exact reads_escape (by decide) rfl
  split
  · next h => rw [h]; exact reads_escape (by decide) rfl
  split
  · next h => rw [h]; exact reads_escape (by decide) rfl
  split
  · next h => subst h; exact reads_escape (by decide) rfl
  split
  · next h => subst h; exact reads_escape (by decide) rfl
  split
  · next h => subst h; exact reads_escape (by decide) rfl
  split
  · next h =>
    rw [hex_of_lt_sixteen _ h]
    have hread := reads_unicode seen (a := '0') rfl (b := '0') rfl (c := '0') rfl
      (hexValue?_digitChar _ h)
    simpa using hread
  split
  · next hlow h =>
    rw [hex_of_lt_thirtyTwo _ h (Nat.not_lt.1 hlow)]
    have hread := reads_unicode seen (a := '0') (i := 0) rfl (b := '0') (j := 0) rfl
      (c := '1') (k := 1) rfl (hexValue?_digitChar (c.toNat - 0x10) (by omega))
    rwa [show ((0 * 16 + 0) * 16 + 1) * 16 + (c.toNat - 0x10) = c.toNat by omega] at hread
  · next hquote hslash _ _ _ _ _ _ h => exact reads_plain hquote hslash h

theorem reads_escapedChars (seen : List Nat) (cs : List Char) :
    Reads (string seen) (cs.flatMap escapeChar) []
      (string ((cs.map Char.toNat).reverse ++ seen)) := by
  induction cs generalizing seen with
  | nil => exact .nil _
  | cons c cs ih =>
      rw [List.flatMap_cons, List.map_cons, List.reverse_cons, List.append_assoc]
      exact (reads_escapeChar seen c).append (ih (c.toNat :: seen))

/-- Characters are no halves of surrogate pairs, so they are taken one by one. -/
theorem joinPairs_map_toNat (cs : List Char) : joinPairs (cs.map Char.toNat) = some cs := by
  have hsurrogate : ∀ c : Char, (isHigh c.toNat || isLow c.toNat) = false := by
    intro c
    have hvalid : c.toNat < 0xd800 ∨ (0xdfff < c.toNat ∧ c.toNat < 0x110000) := c.valid
    simp only [isHigh, isLow, Bool.or_eq_false_iff, Bool.and_eq_false_iff, decide_eq_false_iff_not]
    omega
  induction cs with
  | nil => rfl
  | cons c cs ih =>
      have hc := hsurrogate c
      match cs, ih with
      | [], _ => simp [joinPairs, hc]
      | d :: cs, ih =>
          rw [Bool.or_eq_false_iff] at hc
          rw [List.map_cons] at ih
          simp [joinPairs, hc, ih]

/-- A string is read back from its quotes, also one that spells no text. -/
theorem reads_writeText (s : Option String) :
    Reads between (writeText s) [.str s] between := by
  have hopen : between.step '"' = some (string [], []) := rfl
  have hclose : ∀ seen, (string seen).step '"' = some (between, [stringToken seen]) :=
    fun _ => rfl
  match s with
  | some s =>
      have hread := Reads.cons hopen <|
        (reads_escapedChars [] s.toList).append <| .of_step (hclose _)
      rw [stringToken, List.append_nil, List.reverse_reverse, joinPairs_map_toNat,
        Option.map_some, String.ofList_toList] at hread
      exact hread
  | none => exact .cons hopen <| (reads_unicode _ rfl rfl rfl rfl).append <| .of_step (hclose _)

/-! ## Texts that end in a word -/

/-- The text goes on with a character that belongs to no word, if at all. -/
def Boundary (rest : List Char) : Prop := ∀ c ∈ rest.head?, isWordChar c = false

/-- The characters `cs` spell the tokens `ts`, unless what stands behind goes on with their last
word. -/
def Spells (cs : List Char) (ts : List Token) : Prop :=
  ∀ rest, Boundary rest → between.run (cs ++ rest) = (between.run rest).map (ts ++ ·)

theorem isWordChar_of_isBlank {c : Char} (h : isBlank c = true) : isWordChar c = false := by
  simp only [isBlank, Bool.or_eq_true, decide_eq_true_eq] at h
  rcases h with ((rfl | rfl) | rfl) | rfl <;> rfl

theorem Boundary.cons {c : Char} (h : isWordChar c = false) (cs : List Char) :
    Boundary (c :: cs) := by
  intro d hd
  cases hd
  exact h

theorem Boundary.blanks {cs rest : List Char} (h : ∀ c ∈ cs, isBlank c = true)
    (hrest : Boundary rest) : Boundary (cs ++ rest) := by
  cases cs with
  | nil => exact hrest
  | cons c cs => exact .cons (isWordChar_of_isBlank (h c List.mem_cons_self)) _

namespace Spells

variable {cs ds : List Char} {ts us : List Token}

theorem of_reads (h : Reads between cs ts between) : Spells cs ts := fun rest _ => h rest

theorem nil : Spells [] [] := of_reads (.nil _)

theorem reads_append (h : Reads between cs ts between) (h' : Spells ds us) :
    Spells (cs ++ ds) (ts ++ us) := by
  intro rest hrest
  rw [List.append_assoc, h, h' rest hrest, Option.map_map]
  congr 1
  funext vs
  exact (List.append_assoc ts us vs).symm

theorem append (h : Spells cs ts) (h' : Spells ds us)
    (hb : ∀ rest, Boundary rest → Boundary (ds ++ rest)) : Spells (cs ++ ds) (ts ++ us) := by
  intro rest hrest
  rw [List.append_assoc, h _ (hb rest hrest), h' rest hrest, Option.map_map]
  congr 1
  funext vs
  exact (List.append_assoc ts us vs).symm

theorem reads_word {seen : List Char} (h : ∀ c ∈ cs, isWordChar c = true) :
    Reads (word seen) cs [] (word (cs.reverse ++ seen)) := by
  induction cs generalizing seen with
  | nil => exact .nil _
  | cons c cs ih =>
      rw [List.forall_mem_cons] at h
      rw [List.reverse_cons, List.append_assoc]
      have hstep : (word seen).step c = some (word (c :: seen), []) := if_pos h.1
      exact .cons hstep (ih h.2)

/-- A word ends where no character of a word follows. -/
theorem word (cs : List Char) {t : Token} (hne : cs ≠ []) (h : ∀ c ∈ cs, isWordChar c = true)
    (ht : wordToken? cs = some t) : Spells cs [t] := by
  intro rest hrest
  have hread : Reads between cs [] (.word cs.reverse) := by
    obtain ⟨c, cs, rfl⟩ := List.exists_cons_of_ne_nil hne
    rw [List.forall_mem_cons] at h
    have hblank : ¬isBlank c = true := fun hb => by
      rw [isWordChar_of_isBlank hb] at h
      exact Bool.false_ne_true h.1
    have hstep : between.step c = some (.word [c], []) := by
      rw [step.eq_def]
      exact (if_neg hblank).trans (if_pos h.1)
    rw [List.reverse_cons]
    exact .cons hstep (reads_word h.2)
  have hend : (Mode.word cs.reverse).run rest = (between.run rest).map (t :: ·) := by
    match rest with
    | [] => simp [run, finish, ht]
    | c :: rest =>
        have hc : isWordChar c = false := hrest c rfl
        simp only [run, step, hc, Bool.false_eq_true, if_false, List.reverse_reverse, ht]
        cases stepBetween c with
        | none => rfl
        | some r => cases h : r.1.run rest <;> simp [h]
  rw [hread rest, hend, Option.map_map]
  rfl

end Spells

end Mode

/-! ## Values -/

inductive Spelled : Json → Prop
  | null : Spelled null
  | bool (b : Bool) : Spelled (bool b)
  | num {literal : String} {n : Number} (h : Number.ofLiteral? literal.toList = some n) :
      Spelled (num literal)
  | str (s : Option String) : Spelled (str s)
  | arr {items : List Json} (h : ∀ j ∈ items, Spelled j) : Spelled (arr items)
  | obj {members : List (Option String × Json)} (h : ∀ m ∈ members, Spelled m.2) :
      Spelled (obj members)

mutual

def tokens : Json → List Token
  | null => [.null]
  | bool b => [.bool b]
  | num literal => [.num literal]
  | str s => [.str s]
  | arr [] => [.openArray, .closeArray]
  | arr (j :: js) => .openArray :: (tokens j ++ itemTokens js) ++ [.closeArray]
  | obj [] => [.openObject, .closeObject]
  | obj ((name, j) :: ms) =>
    .openObject :: .str name :: .colon :: (tokens j ++ memberTokens ms) ++ [.closeObject]

def itemTokens : List Json → List Token
  | [] => []
  | j :: js => .comma :: tokens j ++ itemTokens js

def memberTokens : List (Option String × Json) → List Token
  | [] => []
  | (name, j) :: ms => .comma :: .str name :: .colon :: tokens j ++ memberTokens ms

end

open Mode

variable {style : Style} {level : Nat}

theorem reads_mark {c : Char} {t : Token} (h : between.step c = some (between, [t]))
    {cs : List Char} (hcs : ∀ c ∈ cs, isBlank c = true) : Reads between (c :: cs) [t] between :=
  .cons h (.blanks hcs)

theorem reads_close (hs : style.Blank) (level : Nat) {c : Char} {t : Token}
    (h : between.step c = some (between, [t])) :
    Reads between (style.gap level ++ [c]) [t] between :=
  (Reads.blanks (hs.gap level)).append (.of_step h)

theorem boundary_close (hs : style.Blank) {c : Char} (h : isWordChar c = false)
    (rest : List Char) : Boundary (style.gap level ++ [c] ++ rest) := by
  rw [List.append_assoc]
  exact (Boundary.cons h rest).blanks (hs.gap level)

theorem reads_colon (hs : style.Blank) : Reads between style.colon [.colon] between := by
  obtain ⟨blanks, hcolon, hblank⟩ := hs.colon
  rw [hcolon]
  exact reads_mark rfl hblank

theorem reads_name (hs : style.Blank) (level : Nat) {c : Char} {t : Token}
    (h : between.step c = some (between, [t])) (name : Option String) :
    Reads between (c :: style.gap level ++ writeText name ++ style.colon)
      [t, .str name, .colon] between :=
  ((reads_mark h (hs.gap level)).append (reads_writeText name)).append (reads_colon hs)

theorem boundary_writeItems (js : List Json) {rest : List Char} (h : Boundary rest) :
    Boundary (writeItems style level js ++ rest) := by
  cases js with
  | nil => exact h
  | cons j js => exact .cons rfl _

theorem boundary_writeMembers (ms : List (Option String × Json)) {rest : List Char}
    (h : Boundary rest) : Boundary (writeMembers style level ms ++ rest) := by
  cases ms with
  | nil => exact h
  | cons m ms => exact .cons rfl _

theorem spells_writeItems (hs : style.Blank) {js : List Json}
    (h : ∀ j ∈ js, Spells (write style level j) (tokens j)) :
    Spells (writeItems style level js) (itemTokens js) := by
  induction js with
  | nil => exact .nil
  | cons j js ih =>
      rw [List.forall_mem_cons] at h
      have hvalue := h.1.append (ih h.2) fun _ => boundary_writeItems js
      have hread := Spells.reads_append (reads_mark (c := ',') rfl (hs.gap level)) hvalue
      rw [writeItems, itemTokens]
      simpa using hread

theorem spells_writeMembers (hs : style.Blank) {ms : List (Option String × Json)}
    (h : ∀ m ∈ ms, Spells (write style level m.2) (tokens m.2)) :
    Spells (writeMembers style level ms) (memberTokens ms) := by
  induction ms with
  | nil => exact .nil
  | cons m ms ih =>
      obtain ⟨name, j⟩ := m
      rw [List.forall_mem_cons] at h
      have hvalue := h.1.append (ih h.2) fun _ => boundary_writeMembers ms
      have hread := Spells.reads_append (reads_name hs level (c := ',') rfl name) hvalue
      rw [writeMembers, memberTokens]
      simpa using hread

theorem spells_bool (b : Bool) : Spells (write style level (bool b)) (tokens (bool b)) := by
  cases b with
  | true => exact .word ['t', 'r', 'u', 'e'] (by decide) (List.all_eq_true.1 rfl) rfl
  | false => exact .word ['f', 'a', 'l', 's', 'e'] (by decide) (List.all_eq_true.1 rfl) rfl

theorem spells_num {literal : String} {n : Number}
    (h : Number.ofLiteral? literal.toList = some n) :
    Spells (write style level (num literal)) (tokens (num literal)) := by
  obtain ⟨hne, hword⟩ := Number.isWordChar_of_ofLiteral? h
  have ht := wordToken?_of_ofLiteral? h
  rw [String.ofList_toList] at ht
  exact .word _ hne hword ht

theorem spells_arr (hs : style.Blank) {items : List Json}
    (h : ∀ j ∈ items, Spells (write style (level + 1) j) (tokens j)) :
    Spells (write style level (arr items)) (tokens (arr items)) := by
  cases items with
  | nil =>
      have hopen := reads_mark (c := '[') rfl (List.forall_mem_nil _)
      exact .of_reads (hopen.append (.of_step rfl))
  | cons j js =>
      rw [List.forall_mem_cons] at h
      have hitems := h.1.append (spells_writeItems hs h.2) fun _ => boundary_writeItems js
      have hclosed := hitems.append (.of_reads (reads_close hs level (c := ']') rfl))
        fun rest _ => boundary_close hs rfl rest
      have hread := Spells.reads_append (reads_mark (c := '[') rfl (hs.gap (level + 1))) hclosed
      rw [write, tokens]
      simpa using hread

theorem spells_obj (hs : style.Blank) {members : List (Option String × Json)}
    (h : ∀ m ∈ members, Spells (write style (level + 1) m.2) (tokens m.2)) :
    Spells (write style level (obj members)) (tokens (obj members)) := by
  cases members with
  | nil =>
      have hopen := reads_mark (c := '\x7b') rfl (List.forall_mem_nil _)
      exact .of_reads (hopen.append (.of_step rfl))
  | cons m ms =>
      obtain ⟨name, j⟩ := m
      rw [List.forall_mem_cons] at h
      have hmembers := h.1.append (spells_writeMembers hs h.2) fun _ => boundary_writeMembers ms
      have hclosed := hmembers.append (.of_reads (reads_close hs level (c := '\x7d') rfl))
        fun rest _ => boundary_close hs rfl rest
      have hread := Spells.reads_append
        (reads_name hs (level + 1) (c := '\x7b') rfl name) hclosed
      rw [write, tokens]
      simpa using hread

/-- A written value is spelled by its tokens. -/
theorem spells_write (hs : style.Blank) {j : Json} (h : j.Spelled) :
    ∀ level, Spells (write style level j) (tokens j) := by
  induction h with
  | null => exact fun _ => .word ['n', 'u', 'l', 'l'] (by decide) (List.all_eq_true.1 rfl) rfl
  | bool b => exact fun _ => spells_bool b
  | num h => exact fun _ => spells_num h
  | str s => exact fun _ => .of_reads (reads_writeText s)
  | arr _ ih => exact fun level => spells_arr hs fun j hj => ih j hj (level + 1)
  | obj _ ih => exact fun level => spells_obj hs fun m hm => ih m hm (level + 1)

theorem tokens?_write (hs : style.Blank) {j : Json} (h : j.Spelled) :
    tokens? (write style level j) = some (tokens j) := by
  have hrun := spells_write hs h level [] fun _ hc => by cases hc
  rw [List.append_nil] at hrun
  rw [tokens?, hrun]
  simp [run, finish]

end Dataflow.Json
