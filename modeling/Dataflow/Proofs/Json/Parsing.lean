import Dataflow.Json.Reader
import Dataflow.Proofs.Json.Lexing

/-!
# Written values are read back

The reader puts the tokens of a value together to this value and goes on with whatever stands
behind them, so a value is found in its own text, in any style and with all its members.
-/

namespace Dataflow.Json

theorem exists_tokens_eq_cons (j : Json) : ∃ t ts, j.tokens = t :: ts ∧ t ≠ .closeArray := by
  match j with
  | null | bool _ | num _ | str _ | arr [] | obj [] =>
      exact ⟨_, _, by rw [tokens], Token.noConfusion⟩
  | arr (_ :: _) | obj ((_, _) :: _) =>
      exact ⟨_, _, by rw [tokens, List.cons_append], Token.noConfusion⟩

theorem readValue_openArray {stack : List Frame} {t : Token} (h : t ≠ .closeArray)
    (ts : List Token) :
    readValue stack (.openArray :: t :: ts) = readValue (.arr [] :: stack) (t :: ts) := by
  rw [readValue]
  rintro _ ht
  exact h (List.cons.inj ht).1

mutual

/-- The reader takes a value from its tokens and goes on behind them. -/
theorem readValue_tokens : ∀ (j : Json) (stack : List Frame) (ts : List Token),
    readValue stack (j.tokens ++ ts) = resume stack j ts
  | null, _, _ | bool _, _, _ | num _, _, _ | str _, _, _ => by
      rw [tokens, List.singleton_append, readValue]
  | arr [], _, _ | obj [], _, _ => by
      rw [tokens, List.cons_append, List.singleton_append, readValue]
  | arr (j :: js), stack, ts => by
      obtain ⟨t, us, hj, ht⟩ := exists_tokens_eq_cons j
      rw [tokens, List.cons_append, List.cons_append, hj]
      simp only [List.append_assoc, List.cons_append, List.nil_append]
      rw [readValue_openArray ht]
      have hvalue := readValue_tokens j (.arr [] :: stack) (itemTokens js ++ .closeArray :: ts)
      rw [hj] at hvalue
      exact hvalue.trans (resume_itemTokens js stack [] j ts)
  | obj ((name, j) :: ms), stack, ts => by
      rw [tokens]
      simp only [List.append_assoc, List.cons_append, List.nil_append]
      rw [readValue, readValue_tokens, resume_memberTokens]
      rfl

theorem resume_itemTokens : ∀ (js : List Json) (stack : List Frame) (done : List Json) (j : Json)
    (ts : List Token), resume (.arr done :: stack) j (itemTokens js ++ .closeArray :: ts) =
      resume stack (.arr (done.reverse ++ j :: js)) ts
  | [], stack, done, j, ts => by
      rw [itemTokens, List.nil_append, resume, List.reverse_cons]
  | j' :: js, stack, done, j, ts => by
      rw [itemTokens, List.cons_append, List.cons_append, List.append_assoc, resume,
        readValue_tokens j', resume_itemTokens js, List.reverse_cons, List.append_assoc,
        List.singleton_append]

theorem resume_memberTokens : ∀ (ms : List (Option String × Json)) (stack : List Frame)
    (done : List (Option String × Json)) (name : Option String) (j : Json) (ts : List Token),
    resume (.obj done name :: stack) j (memberTokens ms ++ .closeObject :: ts) =
      resume stack (.obj (done.reverse ++ (name, j) :: ms)) ts
  | [], stack, done, name, j, ts => by
      rw [memberTokens, List.nil_append, resume, List.reverse_cons]
  | (name', j') :: ms, stack, done, name, j, ts => by
      rw [memberTokens]
      simp only [List.append_assoc, List.cons_append]
      rw [resume, readValue_tokens j', resume_memberTokens ms, List.reverse_cons,
        List.append_assoc, List.singleton_append]

end

theorem parse?_ofList_write {style : Style} {level : Nat} (hs : style.Blank) {j : Json}
    (h : j.Spelled) : parse? (String.ofList (write style level j)) = some j := by
  have hread := readValue_tokens j [] []
  rw [List.append_nil, resume] at hread
  rw [parse?, String.toList_ofList, tokens?_write hs h]
  exact hread

theorem parse?_pretty {j : Json} (h : j.Spelled) : parse? j.pretty = some j :=
  parse?_ofList_write Style.blank_pretty h

end Dataflow.Json
