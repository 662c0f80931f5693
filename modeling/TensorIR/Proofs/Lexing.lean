import Mathlib.Data.List.TakeWhile
import TensorIR.Program.Text
import TensorIR.Proofs.Numerals

/-! # Tokens

How a text is cut into words and marks (`lex`).

**Key idea**: where a piece of a text ends is seen from the blank or the parenthesis behind it. So
`Lexes` is about a piece in front of any such rest of a text, and hands itself on from pieces to what
is put together from them. A number is one word, with the sign of its exponent in it
(`isWord_of_readNumeral`).
-/

namespace TensorIR

/-- A piece of a text. -/
inductive Token where
  /-- A name or a number. -/
  | word (cs : List Char)
  /-- The symbol of an operator. That of subtraction is the sign of a negation too. -/
  | op (o : BinaryOp)
  | opening
  | closing
  | other (c : Char)
deriving DecidableEq

/-- The characters of names: letters and digits, `_`, and all that is not ASCII. -/
def isNameChar (c : Char) : Bool := c.isAlphanum || c == '_' || 0x80 ≤ c.toNat

/-- A name does not start with a digit. -/
def isName (cs : List Char) : Bool := cs.all isNameChar && cs.head?.any fun c => !c.isDigit

/-- The characters of words. -/
def isWordChar (c : Char) : Bool := isNameChar c || c == '.'

/-- Whether a character goes on with a word. The sign of an exponent does, too. -/
def continues (w : List Char) (c : Char) : Bool :=
  isWordChar c || c == '-' && w.head?.any Char.isDigit && w.getLast? == some 'e'

/-- A character between words. -/
def mark : Char → List Token
  | ' ' => []
  | '+' => [.op .add]
  | '-' => [.op .sub]
  | '*' => [.op .mul]
  | '/' => [.op .div]
  | '(' => [.opening]
  | ')' => [.closing]
  | c => [.other c]

/-- The word that ends here, if there is one. -/
def ended (w : List Char) : List Token := if w = [] then [] else [.word w]

/-- The tokens of a text that goes on with the word `w`. -/
def lexFrom (w : List Char) : List Char → List Token
  | [] => ended w
  | c :: cs =>
    if continues w c then lexFrom (w ++ [c]) cs else ended w ++ (mark c ++ lexFrom [] cs)

/-- The tokens of a text. -/
def lex (text : String) : List Token := lexFrom [] text.toList

/-! ### Words -/

/-- Each character goes on with those in front of it. -/
inductive IsWord : List Char → Prop
  | nil : IsWord []
  | concat {w : List Char} {c : Char} : IsWord w → continues w c = true → IsWord (w ++ [c])

theorem IsWord.lexFrom_append {w : List Char} (h : IsWord w) (rest : List Char) :
    lexFrom [] (w ++ rest) = lexFrom w rest := by
  induction h generalizing rest with
  | nil => rfl
  | @concat w c _ hc ih =>
    -- the last character is the first of what follows the word in front of it
    rw [List.append_assoc, List.singleton_append, ih]
    exact if_pos hc

theorem IsWord.append {w : List Char} (h : IsWord w) {cs : List Char}
    (hcs : ∀ c ∈ cs, isWordChar c = true) : IsWord (w ++ cs) := by
  induction cs generalizing w with
  | nil =>
    rw [List.append_nil]
    exact h
  | cons c cs ih =>
    have hc : continues w c = true := by
      rw [continues, hcs c (by simp), Bool.true_or]
    have hword := ih (h.concat hc) fun x hx => hcs x (List.mem_cons_of_mem c hx)
    rwa [List.append_assoc, List.singleton_append] at hword

theorem isWordChar_of_isDigit {c : Char} (h : c.isDigit = true) : isWordChar c = true := by
  simp [isWordChar, isNameChar, Char.isAlphanum, h]

theorem isWord_of_isName {w : List Char} (h : isName w = true) : w ≠ [] ∧ IsWord w := by
  rw [isName, Bool.and_eq_true, List.all_eq_true] at h
  refine ⟨fun hnil => ?_, IsWord.nil.append fun c hc => ?_⟩
  · rw [hnil] at h
    cases h.2
  · rw [isWordChar, h.1 c hc, Bool.true_or]

/-! ### Numbers -/

theorem readExponent_shape {cs : List Char} {e : ℤ} (h : readExponent cs = some e) :
    cs = [] ∨ ∃ ds, IsDigits ds ∧ (cs = 'e' :: ds ∨ cs = 'e' :: '-' :: ds) := by
  unfold readExponent at h
  split at h
  · exact .inl rfl
  · next cs =>
    unfold readInt at h
    split at h
    · next ds =>
      split at h
      · next hds => exact .inr ⟨ds, hds, .inr rfl⟩
      · cases h
    · split at h
      · next hds => exact .inr ⟨cs, hds, .inl rfl⟩
      · cases h
  · cases h

theorem isWordChar_of_mem_digits {c : Char} {cs : List Char}
    (h : c ∈ cs.takeWhile Char.isDigit) : isWordChar c = true :=
  isWordChar_of_isDigit (List.mem_takeWhile_imp h)

theorem any_head?_digits {cs : List Char} (h : cs.takeWhile Char.isDigit ≠ []) (rest : List Char) :
    (cs.takeWhile Char.isDigit ++ rest).head?.any Char.isDigit = true := by
  have hdigit : ((cs.takeWhile Char.isDigit).head h).isDigit = true :=
    List.mem_takeWhile_imp (List.head_mem h)
  rw [List.head?_append_of_ne_nil _ h, List.head?_eq_some_head h]
  exact hdigit

/-- A number is digits, perhaps with a point among them, and an exponent. -/
theorem readNumeral_shape {w : List Char} {l : Literal} (h : readNumeral w = some l) :
    ∃ m x, w = m ++ x ∧ (∀ c ∈ m, isWordChar c = true) ∧ m.head?.any Char.isDigit = true ∧
      ∃ e, readExponent x = some e := by
  have hsplit : w.takeWhile Char.isDigit ++ w.dropWhile Char.isDigit = w :=
    List.takeWhile_append_dropWhile
  unfold readNumeral at h
  dsimp only at h
  split at h
  · cases h
  · next hne =>
    have hhead : (w.takeWhile Char.isDigit).head?.any Char.isDigit = true := by
      simpa using any_head?_digits hne []
    split at h
    · next hrest =>
      rw [hrest] at hsplit
      exact ⟨_, [], hsplit.symm, fun _ hc => isWordChar_of_mem_digits hc, hhead, 0, rfl⟩
    · next rest hrest =>
      -- the digits behind the point belong to the first part, with the point
      split at h
      · cases h
      · obtain ⟨e, he, -⟩ := Option.map_eq_some_iff.1 h
        refine ⟨w.takeWhile Char.isDigit ++ '.' :: rest.takeWhile Char.isDigit,
          rest.dropWhile Char.isDigit, ?_, fun c hc => ?_, any_head?_digits hne _, e, he⟩
        · rw [List.append_assoc, List.cons_append, List.takeWhile_append_dropWhile, ← hrest, hsplit]
        · rcases List.mem_append.1 hc with hc | hc
          · exact isWordChar_of_mem_digits hc
          · rcases List.mem_cons.1 hc with rfl | hc
            · rfl
            · exact isWordChar_of_mem_digits hc
    · obtain ⟨e, he, -⟩ := Option.map_eq_some_iff.1 h
      exact ⟨_, _, hsplit.symm, fun _ hc => isWordChar_of_mem_digits hc, hhead, e, he⟩

theorem isWord_of_readNumeral {w : List Char} {l : Literal} (h : readNumeral w = some l) :
    w ≠ [] ∧ IsWord w := by
  obtain ⟨m, x, rfl, hm, hhead, e, he⟩ := readNumeral_shape h
  have hne : m ≠ [] := by
    intro hnil
    rw [hnil] at hhead
    cases hhead
  refine ⟨by simp [hne], ?_⟩
  rcases readExponent_shape he with rfl | ⟨ds, hds, rfl | rfl⟩
  · rw [List.append_nil]
    exact IsWord.nil.append hm
  · refine (IsWord.nil.append hm).append fun c hc => ?_
    rcases List.mem_cons.1 hc with rfl | hc
    · rfl
    · exact isWordChar_of_isDigit (hds.2 c hc)
  · have hmantissa : IsWord (m ++ ['e']) := (IsWord.nil.append hm).concat rfl
    -- the sign is part of the word for the digit in front and the `e` before it
    have hsign : continues (m ++ ['e']) '-' = true := by
      rw [continues, List.head?_append_of_ne_nil _ hne, hhead, List.getLast?_concat]
      rfl
    have hword := (hmantissa.concat hsign).append fun c hc => isWordChar_of_isDigit (hds.2 c hc)
    simpa using hword

/-- A name is not a number. -/
theorem readNumeral_eq_none_of_isName {w : List Char} (h : isName w = true) :
    readNumeral w = none := by
  rw [isName, Bool.and_eq_true] at h
  cases hread : readNumeral w with
  | none => rfl
  | some l =>
    obtain ⟨m, x, rfl, -, hhead, -⟩ := readNumeral_shape hread
    cases m with
    | nil => cases hhead
    | cons c m =>
      have hdigit : c.isDigit = true := hhead
      have hno : (!c.isDigit) = true := h.2
      rw [hdigit] at hno
      cases hno

/-! ### Pieces of a text -/

/-- What does not go on with a word. -/
def Stops (rest : List Char) : Prop := ∀ c ∈ rest.head?, c = ' ' ∨ c = ')'

/-- The tokens of a piece of a text. -/
def Lexes (cs : List Char) (ts : List Token) : Prop :=
  ∀ rest, Stops rest → lexFrom [] (cs ++ rest) = ts ++ lexFrom [] rest

namespace Lexes

variable {cs cs' : List Char} {ts ts' : List Token}

theorem lex_eq {text : String} (h : Lexes text.toList ts) : lex text = ts := by
  have hlex := h [] (by simp [Stops])
  rw [List.append_nil] at hlex
  rw [lex, hlex]
  exact List.append_nil ts

theorem word {w : List Char} (h : w ≠ [] ∧ IsWord w) : Lexes w [.word w] := by
  intro rest hrest
  have hended : ended w = [.word w] := if_neg h.1
  rw [h.2.lexFrom_append]
  cases rest with
  | nil => exact hended
  | cons c rest =>
    -- what stops a word is no part of one, here or at the start of the rest
    have hno : ∀ u, continues u c = false := by
      rcases hrest c rfl with rfl | rfl
      · exact fun _ => rfl
      · exact fun _ => rfl
    have hstep : ∀ u, lexFrom u (c :: rest) = ended u ++ (mark c ++ lexFrom [] rest) := fun u => by
      simp [lexFrom, hno]
    rw [hstep, hstep, hended]
    rfl

/-- A mark in front. -/
theorem cons {c : Char} {t : Token} (hc : continues [] c = false) (ht : mark c = [t])
    (h : Lexes cs ts) : Lexes (c :: cs) (t :: ts) := by
  intro rest hrest
  have hstep : lexFrom [] (c :: (cs ++ rest)) = mark c ++ lexFrom [] (cs ++ rest) := by
    simp [lexFrom, hc, ended]
  rw [List.cons_append, hstep, ht, h rest hrest]
  rfl

theorem paren (h : Lexes cs ts) :
    Lexes ('(' :: (cs ++ [')'])) (.opening :: (ts ++ [.closing])) := by
  refine cons rfl rfl fun rest _ => ?_
  rw [List.append_assoc, List.singleton_append, h (')' :: rest) (by simp [Stops]),
    List.append_assoc]
  rfl

theorem binary (o : BinaryOp) (h : Lexes cs ts) (h' : Lexes cs' ts') :
    Lexes (cs ++ (' ' :: o.text.toList ++ ' ' :: cs')) (ts ++ .op o :: ts') := by
  intro rest hrest
  have hop : lexFrom [] (' ' :: o.text.toList ++ ' ' :: (cs' ++ rest)) =
      .op o :: lexFrom [] (cs' ++ rest) := by
    cases o <;> rfl
  have hassoc : cs ++ (' ' :: o.text.toList ++ ' ' :: cs') ++ rest =
      cs ++ (' ' :: o.text.toList ++ ' ' :: (cs' ++ rest)) := by simp
  rw [hassoc, h _ (by simp [Stops]), hop, h' rest hrest, List.append_assoc]
  rfl

end Lexes

example : lex "a - 1e-7" = [.word ['a'], .op .sub, .word ['1', 'e', '-', '7']] := by decide

end TensorIR
