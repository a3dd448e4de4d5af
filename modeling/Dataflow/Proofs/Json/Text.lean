import Dataflow.Json.Text
import Dataflow.Proofs.Json.Token

/-!
# Trees read back

The text of a tree is read as that tree (`Json.parse?_render`), for every tree: nothing is asked
of the strings, the integers, the nesting or the keys.

Both halves of the reader follow the recursion by which a tree is written.  Cutting the text gives
back the tokens (`Json.lexes_tokens`).  The machine, started on the tokens of a tree where a value
must come, hands that tree to the frame that waits for it and goes on with what follows
(`Json.run_tokens`); inside an array or an object the items and members that are still to come end
up behind the ones read so far.
-/

namespace Dataflow.Json

/-! ### Cutting the text of a tree -/

theorem head?_itemTokens (js : List Json) : ∀ t ∈ (itemTokens js).head?, t.isNumber = false := by
  cases js <;> simp [itemTokens, Token.isNumber]

theorem head?_membersTokens (ms : List (Text × Json)) :
    ∀ t ∈ (membersTokens ms).head?, t.isNumber = false := by
  cases ms <;> simp [membersTokens, Token.isNumber]

mutual

theorem lexes_tokens : ∀ j : Json, Token.Lexes j.tokens
  | null | bool _ | int _ | float | str _ => by
    simp only [tokens]
    exact .singleton _
  | array [] => by
    simp only [tokens]
    exact .cons rfl (.singleton _)
  | array (j :: js) => by
    simp only [tokens]
    exact .cons rfl (((lexes_tokens j).append (lexes_itemTokens js) (head?_itemTokens js)).append
      (.singleton _) (by simp [Token.isNumber]))
  | object [] => by
    simp only [tokens]
    exact .cons rfl (.singleton _)
  | object (m :: ms) => by
    simp only [tokens]
    exact .cons rfl (((lexes_memberTokens m).append (lexes_membersTokens ms)
      (head?_membersTokens ms)).append (.singleton _) (by simp [Token.isNumber]))

theorem lexes_itemTokens : ∀ js : List Json, Token.Lexes (itemTokens js)
  | [] => .nil
  | j :: js =>
    .cons rfl ((lexes_tokens j).append (lexes_itemTokens js) (head?_itemTokens js))

theorem lexes_membersTokens : ∀ ms : List (Text × Json), Token.Lexes (membersTokens ms)
  | [] => .nil
  | m :: ms =>
    .cons rfl ((lexes_memberTokens m).append (lexes_membersTokens ms) (head?_membersTokens ms))

theorem lexes_memberTokens : ∀ m : Text × Json, Token.Lexes (memberTokens m)
  | (_, j) => .cons rfl (.cons rfl (lexes_tokens j))

end

theorem lex_render (j : Json) : Token.lex j.render.toList = some j.tokens := by
  have hlex := lexes_tokens j [] (by simp [Boundary])
  simpa [render, Token.lex_nil] using hlex

/-! ### Reading the tokens of a tree -/

namespace Cursor

theorem run_cons {c c' : Cursor} {t : Token} (h : c.step t = some c') (ts : List Token) :
    c.run (t :: ts) = c'.run ts := by
  rw [run, h, Option.bind_some]

/-- Right after a bracket a value is the first item of the array. -/
theorem run_items (j : Json) (frames : List Frame) (ts : List Token) :
    (items frames).run (j.tokens ++ ts) = (value (.array [] :: frames)).run (j.tokens ++ ts) := by
  obtain ⟨t, us, htokens, ht⟩ : ∃ t us, j.tokens = t :: us ∧ t ≠ .rightBracket := by
    rcases j with _ | _ | _ | _ | _ | (_ | _) | (_ | _) <;> simp [tokens]
  have hstep : (items frames).step t = (value (.array [] :: frames)).step t := by
    cases t <;> simp_all [step]
  rw [htokens, List.cons_append, run, run, hstep]

/-- Right after a brace a key is the first key of the object. -/
theorem run_members (m : Text × Json) (frames : List Frame) (ts : List Token) :
    (members frames).run (memberTokens m ++ ts) = (key [] frames).run (memberTokens m ++ ts) := by
  obtain ⟨k, j⟩ := m
  rw [memberTokens, List.cons_append, run_cons rfl, run_cons rfl]

end Cursor

open Cursor

mutual

/-- Where a value must come, the tokens of a tree are read as that tree. -/
theorem run_tokens : ∀ (j : Json) (frames : List Frame) (ts : List Token),
    (value frames).run (j.tokens ++ ts) = (deliver j frames).run ts
  | null, _, _ | bool _, _, _ | int _, _, _ | float, _, _ | str _, _, _ => by
    simp only [tokens, List.singleton_append]
    exact run_cons rfl _
  | array [], frames, ts => by
    simp only [tokens, List.cons_append, List.nil_append]
    rw [run_cons rfl, run_cons rfl]
  | array (j :: js), frames, ts => by
    simp only [tokens, List.cons_append, List.append_assoc, List.nil_append]
    rw [run_cons rfl, run_items, run_tokens j, deliver, run_itemTokens js]
    rfl
  | object [], frames, ts => by
    simp only [tokens, List.cons_append, List.nil_append]
    rw [run_cons rfl, run_cons rfl]
  | object (m :: ms), frames, ts => by
    simp only [tokens, List.cons_append, List.append_assoc, List.nil_append]
    rw [run_cons rfl, run_members, run_memberTokens m, run_membersTokens ms]
    rfl

/-- The items that follow are put behind the items read so far. -/
theorem run_itemTokens : ∀ (js read : List Json) (frames : List Frame) (ts : List Token),
    (afterItem read frames).run (itemTokens js ++ .rightBracket :: ts) =
      (deliver (.array (read.reverse ++ js)) frames).run ts
  | [], read, frames, ts => by
    rw [itemTokens, List.nil_append, run_cons rfl, List.append_nil]
  | j :: js, read, frames, ts => by
    simp only [itemTokens, List.cons_append, List.append_assoc]
    rw [run_cons rfl, run_tokens j, deliver, run_itemTokens js]
    simp

/-- The members that follow are put behind the members read so far. -/
theorem run_membersTokens : ∀ (ms read : List (Text × Json)) (frames : List Frame)
    (ts : List Token),
    (afterMember read frames).run (membersTokens ms ++ .rightBrace :: ts) =
      (deliver (.object (read.reverse ++ ms)) frames).run ts
  | [], read, frames, ts => by
    rw [membersTokens, List.nil_append, run_cons rfl, List.append_nil]
  | m :: ms, read, frames, ts => by
    simp only [membersTokens, List.cons_append, List.append_assoc]
    rw [run_cons rfl, run_memberTokens m, run_membersTokens ms]
    simp

/-- Where a key must come, a member is read. -/
theorem run_memberTokens : ∀ (m : Text × Json) (read : List (Text × Json)) (frames : List Frame)
    (ts : List Token),
    (key read frames).run (memberTokens m ++ ts) = (afterMember (m :: read) frames).run ts
  | (k, j), read, frames, ts => by
    simp only [memberTokens, List.cons_append]
    rw [run_cons rfl, run_cons rfl, run_tokens j, deliver]

end

theorem ofTokens?_tokens (j : Json) : ofTokens? j.tokens = some j := by
  have hrun := run_tokens j [] []
  rw [List.append_nil] at hrun
  simp [ofTokens?, hrun, deliver, run]

/-- The text of a tree is read as that tree. -/
theorem parse?_render (j : Json) : parse? j.render = some j := by
  rw [parse?, lex_render, Option.bind_some, ofTokens?_tokens]

end Dataflow.Json
