import ArrayPlan.Decimal.Double
import Std.Data.String.ToInt

/-!
Words in texts. A word has no marks in it: no spaces, commas, parentheses and brackets. Names and numbers are words, and
their characters tell a number from a name.
-/

namespace ArrayPlan

section Words

def marks : List Char :=
  [' ', ',', '(', ')', '[', ']']

def IsWord (s : String) : Prop :=
  s.toList ≠ [] ∧ ∀ c ∈ s.toList, c ∉ marks

instance (s : String) : Decidable (IsWord s) :=
  decidable_of_iff (s.toList ≠ [] ∧ s.toList.all (· ∉ marks) = true) (by simp [IsWord])

/-- Letters and the underscore. All characters beyond the first half of a byte count as letters. -/
def isLetter (c : Char) : Bool :=
  c.isAlpha || c == '_' || decide (127 < c.toNat)

def IsIdentifier (name : String) : Prop :=
  ∃ c cs, name.toList = c :: cs ∧ isLetter c = true ∧ ∀ d ∈ cs, isLetter d = true ∨ d.isDigit = true

def IsName (name : String) : Prop :=
  IsIdentifier name ∧ name ≠ "inf" ∧ name ≠ "NaN"

def isIdentifier : List Char → Bool
  | [] => false
  | c :: cs => isLetter c && cs.all fun d => isLetter d || d.isDigit

theorem isIdentifier_iff {name : String} : isIdentifier name.toList = true ↔ IsIdentifier name := by
  unfold IsIdentifier isIdentifier
  cases name.toList <;> simp [and_assoc]

instance (name : String) : Decidable (IsIdentifier name) :=
  decidable_of_iff _ isIdentifier_iff

instance (name : String) : Decidable (IsName name) :=
  inferInstanceAs (Decidable (_ ∧ _))

theorem not_mem_marks_of_isLetter {c : Char} (h : isLetter c = true) : c ∉ marks := by
  have hmarks : marks.all (!isLetter ·) = true := by decide
  intro hc
  have hc := List.all_eq_true.1 hmarks c hc
  rw [h] at hc
  cases hc

theorem not_mem_marks_of_isDigit {c : Char} (h : c.isDigit = true) : c ∉ marks := by
  have hmarks : marks.all (!Char.isDigit ·) = true := by decide
  intro hc
  have hc := List.all_eq_true.1 hmarks c hc
  rw [h] at hc
  cases hc

theorem isDigit_eq_false_of_isLetter {c : Char} (h : isLetter c = true) : c.isDigit = false := by
  have hdigits : ∀ n < 58, isLetter (Char.ofNat n) = false := by decide
  rw [Bool.eq_false_iff]
  intro hdigit
  rw [Char.isDigit_iff_toNat] at hdigit
  have hc := hdigits c.toNat (Nat.lt_succ_of_le hdigit.2)
  rw [Char.ofNat_toNat, h] at hc
  cases hc

theorem IsIdentifier.isWord {name : String} (h : IsIdentifier name) : IsWord name := by
  obtain ⟨c, cs, hname, hc, hcs⟩ := h
  rw [IsWord, hname]
  refine ⟨List.cons_ne_nil c cs, List.forall_mem_cons.2 ⟨not_mem_marks_of_isLetter hc, fun d hd => ?_⟩⟩
  exact (hcs d hd).elim not_mem_marks_of_isLetter not_mem_marks_of_isDigit

theorem mem_toList_repr {n : Nat} {c : Char} (h : c ∈ n.repr.toList) : c.isDigit = true := by
  rw [Nat.repr_eq_ofList_toDigits, String.toList_ofList] at h
  exact Nat.isDigit_of_mem_toDigits (by decide) (by decide) h

theorem toList_repr_ne_nil (n : Nat) : n.repr.toList ≠ [] := by
  rw [Nat.repr_eq_ofList_toDigits, String.toList_ofList]
  exact Nat.toDigits_ne_nil

theorem toList_toString_int (n : Int) :
    (toString n).toList = (if n < 0 then ['-'] else []) ++ n.natAbs.repr.toList := by
  cases n with
  | ofNat n => rfl
  | negSucc n => rw [if_pos (Int.negSucc_lt_zero n)]; exact String.toList_append

theorem mem_toList_toString_int {n : Int} {c : Char} (h : c ∈ (toString n).toList) : c.isDigit = true ∨ c = '-' := by
  rw [toList_toString_int] at h
  rcases List.mem_append.1 h with h | h
  · split at h
    · exact .inr (List.mem_singleton.1 h)
    · cases h
  · exact .inl (mem_toList_repr h)

theorem isWord_toString_int (n : Int) : IsWord (toString n) := by
  refine ⟨?_, fun c hc => ?_⟩
  · rw [toList_toString_int]
    exact List.append_ne_nil_of_right_ne_nil _ (toList_repr_ne_nil _)
  · rcases mem_toList_toString_int hc with hdigit | rfl
    · exact not_mem_marks_of_isDigit hdigit
    · decide

theorem toString_int_ne_of_isIdentifier {name : String} (h : IsIdentifier name) (n : Int) : toString n ≠ name := by
  rintro rfl
  obtain ⟨c, cs, hname, hc, -⟩ := h
  rcases mem_toList_toString_int (hname ▸ List.mem_cons_self) with hdigit | rfl
  · rw [isDigit_eq_false_of_isLetter hc] at hdigit
    cases hdigit
  · revert hc
    decide

theorem append_inj_of_forall {p : Char → Prop} {w w' rest rest' : List Char} (hw : ∀ c ∈ w, p c) (hw' : ∀ c ∈ w', p c)
    (hrest : ∀ c ∈ rest.head?, ¬p c) (hrest' : ∀ c ∈ rest'.head?, ¬p c) (h : w ++ rest = w' ++ rest') :
    w = w' ∧ rest = rest' := by
  induction w generalizing w' with
  | nil =>
    cases w' with
    | nil => exact ⟨rfl, h⟩
    | cons c w' =>
      obtain rfl : rest = c :: (w' ++ rest') := h
      exact absurd (hw' c List.mem_cons_self) (hrest c rfl)
  | cons c w ih =>
    obtain ⟨hc, hw⟩ := List.forall_mem_cons.1 hw
    cases w' with
    | nil =>
      obtain rfl : c :: (w ++ rest) = rest' := h
      exact absurd hc (hrest' c rfl)
    | cons c' w' =>
      obtain ⟨rfl, htail⟩ := List.cons.inj h
      obtain ⟨rfl, hsame⟩ := ih hw (List.forall_mem_cons.1 hw').2 htail
      exact ⟨rfl, hsame⟩

end Words

/-- What has to hold of the texts of real constants: they are words, different ones for different numbers, and none of
them is the text of an integer or a name. -/
structure RealNotation (realText : Float → String) : Prop where
  same : ∀ x y, realText x = realText y → sameNumber x y = true
  isWord : ∀ x, IsWord (realText x)
  ne_int : ∀ x (n : Int), realText x ≠ toString n
  ne_name : ∀ x name, IsName name → realText x ≠ name

end ArrayPlan
