import CallChain.JavaScript.Grammar.Statement
import CallChain.Proofs.JavaScript.Place

/-!
# Texts that are one chain

A chain is written as a name and, for each of its links, a dot, a name and an empty list of arguments.
Before each dot stands the same glue: nothing, or some blanks.
-/
namespace CallChain.JavaScript

def isIdentifierStart (c : Char) : Bool := c.isAlpha || c == '_' || c == '$'

def isIdentifierPart (c : Char) : Bool := isIdentifierStart c || c.isDigit

/-- The text is an ASCII identifier. -/
def isIdentifier : List Char → Bool
  | [] => false
  | c :: cs => isIdentifierStart c && cs.all isIdentifierPart

/-- Words with which the grammar starts something else than a plain operand. -/
def keywords : List String :=
  ["var", "const", "let", "function", "async", "class", "if", "for", "while", "do", "switch", "try",
   "with", "break", "continue", "return", "throw", "debugger", "import", "export", "new", "typeof",
   "void", "delete", "await", "yield"]

theorem toNat_lt_of_isIdentifierPart {c : Char} (h : isIdentifierPart c = true) : c.toNat < 128 := by
  simp only [isIdentifierPart, isIdentifierStart, Char.isAlpha, Char.isUpper, Char.isLower,
    Char.isDigit, Bool.or_eq_true, Bool.and_eq_true, decide_eq_true_eq, beq_iff_eq, ge_iff_le,
    UInt32.le_iff_toNat_le] at h
  rcases h with (((h | h) | h) | h) | h
  · exact Nat.lt_of_le_of_lt h.2 (by decide)
  · exact Nat.lt_of_le_of_lt h.2 (by decide)
  · rw [h]; decide
  · rw [h]; decide
  · exact Nat.lt_of_le_of_lt h.2 (by decide)

/-- What holds of the ASCII characters of a class, one by one, holds of the class. -/
theorem of_ascii {q : Char → Bool} (h : ∀ n < 128, isIdentifierPart (Char.ofNat n) = true →
    q (Char.ofNat n) = true) {c : Char} (hc : isIdentifierPart c = true) : q c = true := by
  have hq := h c.toNat (toNat_lt_of_isIdentifierPart hc)
  rw [Char.ofNat_toNat] at hq
  exact hq hc

theorem isNamePart_of_isIdentifierPart {c : Char} (h : isIdentifierPart c = true) :
    isNamePart c = true :=
  of_ascii (by decide +kernel) h

theorem isNameStart_of_isIdentifierStart {c : Char} (h : isIdentifierStart c = true) :
    isNameStart c = true := by
  have hpart : isIdentifierPart c = true := by rw [isIdentifierPart, h]; rfl
  have hdigit : (!isIdentifierStart c || !c.isDigit) = true :=
    of_ascii (q := fun c => !isIdentifierStart c || !c.isDigit) (by decide +kernel) hpart
  rw [isNameStart, isNamePart_of_isIdentifierPart hpart, Bool.true_and]
  simpa [h] using hdigit

theorem isSpace_eq_false_of_isNamePart {c : Char} (h : isNamePart c = true) : isSpace c = false := by
  simp only [isNamePart, Bool.and_eq_true, Bool.not_eq_true'] at h
  exact h.1.2

theorem ne_of_isIdentifierStart {c d : Char} (hc : isIdentifierStart c = true)
    (hd : isIdentifierStart d = false) : c ≠ d := by
  rintro rfl
  rw [hc] at hd
  cases hd

/-- A name that ends before this text is not longer. -/
def EndsName (cs : List Char) : Prop := ∀ c, cs.head? = some c → isNamePart c = false

theorem endsName_cons {c : Char} {cs : List Char} (h : isNamePart c = false) : EndsName (c :: cs) := by
  intro d hd
  obtain rfl := Option.some.inj hd
  exact h

section Identifier

variable {word rest : List Char} (h : isIdentifier word = true)
include h

theorem exists_cons_of_isIdentifier : ∃ c cs, word = c :: cs ∧ isIdentifierStart c = true ∧
    ∀ d ∈ cs, isIdentifierPart d = true := by
  cases word with
  | nil => cases h
  | cons c cs =>
    rw [isIdentifier, Bool.and_eq_true, List.all_eq_true] at h
    exact ⟨c, cs, rfl, h⟩

theorem nameLength_append (hrest : EndsName rest) : nameLength (word ++ rest) = word.length := by
  obtain ⟨c, cs, rfl, hc, hcs⟩ := exists_cons_of_isIdentifier h
  have htake : (cs ++ rest).takeWhile isNamePart = cs := by
    rw [List.takeWhile_append_of_pos fun d hd => isNamePart_of_isIdentifierPart (hcs d hd)]
    cases rest with
    | nil => simp
    | cons d rest => simp [hrest d rfl]
  rw [List.cons_append, nameLength, if_pos (isNameStart_of_isIdentifierStart hc), htake,
    List.length_cons, Nat.add_comm]

theorem nameAt_append (hrest : EndsName rest) : nameAt (word ++ rest) = word := by
  rw [nameAt, nameLength_append h hrest, List.take_left]

theorem opensToken_append : OpensToken (word ++ rest) := by
  obtain ⟨c, cs, rfl, hc, -⟩ := exists_cons_of_isIdentifier h
  have hstart := isNameStart_of_isIdentifierStart hc
  rw [isNameStart, Bool.and_eq_true] at hstart
  exact opensToken_cons (isSpace_eq_false_of_isNamePart hstart.1) (ne_of_isIdentifierStart hc rfl)

theorem mem_isNamePart : ∀ c ∈ word, isNamePart c = true := by
  obtain ⟨c, cs, rfl, hc, hcs⟩ := exists_cons_of_isIdentifier h
  intro d hd
  rcases List.mem_cons.mp hd with rfl | hd
  · exact isNamePart_of_isIdentifierPart (by rw [isIdentifierPart, hc]; rfl)
  · exact isNamePart_of_isIdentifierPart (hcs d hd)

end Identifier

/-- A link of a chain with what stands before its dot. -/
def link (glue name : List Char) : List Char := glue ++ '.' :: (name ++ ['(', ')'])

/-- The text of a chain. The names of the links come from the last to the first. -/
def chain (glue base : List Char) : List (List Char) → List Char
  | [] => base
  | name :: earlier => chain glue base earlier ++ link glue name

theorem chain_append (glue base : List Char) (later earlier : List (List Char)) :
    chain glue base (later.reverse ++ earlier) =
      chain glue base earlier ++ later.flatMap (link glue) := by
  induction later generalizing earlier with
  | nil => simp
  | cons name later ih =>
    rw [List.reverse_cons, List.append_assoc, List.singleton_append, ih, chain, List.flatMap_cons,
      List.append_assoc]

/-- Names of links from the first to the last. -/
theorem chain_reverse (glue base : List Char) (names : List (List Char)) :
    chain glue base names.reverse = base ++ names.flatMap (link glue) := by
  rw [← List.append_nil names.reverse, chain_append]
  rfl

end CallChain.JavaScript
