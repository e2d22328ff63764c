import ArrayPlan.Decimal.Style
import ArrayPlan.Proofs.ShortestDecimals
import ArrayPlan.Proofs.Words

/-!
Texts of doubles. A decimal is written as digits, which a point may divide, and a power of ten behind an `e`. Such a text
shows its digits and its power of ten, and so the decimal that was written, however it was written. With the sign this
makes the texts of all doubles different, and those of the style of constants are like no integer and like no name.
-/

namespace ArrayPlan.Decimal

open Double

/-- Digits, digits behind a point, and a power of ten; the point is left out if no digits follow it. -/
structure Spelling where
  whole : List Char
  fraction : List Char
  power : Option Int

namespace Spelling

variable {s s' : Spelling}

def pointed : List Char → List Char
  | [] => []
  | c :: cs => '.' :: c :: cs

def powered : Option Int → List Char
  | none => []
  | some e => 'e' :: (toString e).toList

def chars (s : Spelling) : List Char :=
  s.whole ++ (pointed s.fraction ++ powered s.power)

def value (s : Spelling) : ℚ :=
  Nat.ofDigitChars 10 (s.whole ++ s.fraction) 0 * 10 ^ (s.power.getD 0 - s.fraction.length)

structure Proper (s : Spelling) : Prop where
  whole_ne_nil : s.whole ≠ []
  whole : ∀ c ∈ s.whole, c.isDigit = true
  fraction : ∀ c ∈ s.fraction, c.isDigit = true

def Marked (s : Spelling) : Prop :=
  s.fraction ≠ [] ∨ s.power ≠ none

theorem pointed_of_ne_nil {fraction : List Char} (h : fraction ≠ []) : pointed fraction = '.' :: fraction := by
  cases fraction with
  | nil => exact absurd rfl h
  | cons => rfl

theorem head_powered (power : Option Int) : ∀ c ∈ (powered power).head?, ¬c.isDigit = true := by
  cases power with
  | none => simp [powered]
  | some e => simp [powered]

theorem head_pointed (fraction : List Char) (power : Option Int) :
    ∀ c ∈ (pointed fraction ++ powered power).head?, ¬c.isDigit = true := by
  cases fraction with
  | nil => exact head_powered power
  | cons c cs => simp [pointed]

theorem powered_injective {power power' : Option Int} (h : powered power = powered power') : power = power' := by
  cases power with
  | none =>
    cases power' with
    | none => rfl
    | some e => cases h
  | some e =>
    cases power' with
    | none => cases h
    | some e' => rw [Int.repr_injective (String.toList_inj.1 (List.tail_eq_of_cons_eq h))]

theorem powered_ne_point (power : Option Int) (cs : List Char) : powered power ≠ '.' :: cs := by
  cases power <;> simp [powered]

theorem pointed_inj {fraction fraction' : List Char} {power power' : Option Int}
    (hdigits : ∀ c ∈ fraction, c.isDigit = true) (hdigits' : ∀ c ∈ fraction', c.isDigit = true)
    (h : pointed fraction ++ powered power = pointed fraction' ++ powered power') :
    fraction = fraction' ∧ power = power' := by
  cases fraction with
  | nil =>
    cases fraction' with
    | nil => exact ⟨rfl, powered_injective h⟩
    | cons c' cs' => exact absurd h (powered_ne_point power _)
  | cons c cs =>
    cases fraction' with
    | nil => exact absurd h.symm (powered_ne_point power' _)
    | cons c' cs' =>
      obtain ⟨hfraction, hpower⟩ := append_inj_of_forall hdigits hdigits' (head_powered power) (head_powered power')
        (List.tail_eq_of_cons_eq h)
      exact ⟨hfraction, powered_injective hpower⟩

theorem Proper.chars_inj (hs : s.Proper) (hs' : s'.Proper) (h : s.chars = s'.chars) : s = s' := by
  obtain ⟨hwhole, hbehind⟩ := append_inj_of_forall hs.whole hs'.whole (head_pointed _ _) (head_pointed _ _) h
  obtain ⟨hfraction, hpower⟩ := pointed_inj hs.fraction hs'.fraction hbehind
  cases s
  cases s'
  simp_all

theorem Proper.chars_eq (hs : s.Proper) : ∃ c cs, s.chars = c :: cs ∧ c.isDigit = true := by
  obtain ⟨c, cs, hwhole⟩ := List.exists_cons_of_ne_nil hs.whole_ne_nil
  exact ⟨c, cs ++ (pointed s.fraction ++ powered s.power), by rw [chars, hwhole, List.cons_append],
    hs.whole c (hwhole ▸ List.mem_cons_self)⟩

theorem Proper.mem_chars (hs : s.Proper) {c : Char} (hc : c ∈ s.chars) :
    c.isDigit = true ∨ c ∈ ['.', 'e', '-'] := by
  have hpointed : c ∈ pointed s.fraction → c = '.' ∨ c ∈ s.fraction := by
    cases s.fraction <;> simp [pointed]
  have hpowered : c ∈ powered s.power → c = 'e' ∨ c.isDigit = true ∨ c = '-' := by
    cases s.power with
    | none => simp [powered]
    | some e => exact fun hmem => (List.mem_cons.1 hmem).imp_right mem_toList_toString_int
  rw [chars, List.mem_append, List.mem_append] at hc
  obtain hwhole | hbehind | hbehind := hc
  · exact .inl (hs.whole c hwhole)
  · obtain rfl | hfraction := hpointed hbehind
    · exact .inr (by simp)
    · exact .inl (hs.fraction c hfraction)
  · obtain rfl | hdigit | rfl := hpowered hbehind
    · exact .inr (by simp)
    · exact .inl hdigit
    · exact .inr (by simp)

theorem Marked.exists_mem (h : s.Marked) : ∃ c ∈ s.chars, c = '.' ∨ c = 'e' := by
  obtain hfraction | hpower := h
  · obtain ⟨c, cs, heq⟩ := List.exists_cons_of_ne_nil hfraction
    exact ⟨'.', by simp [chars, heq, pointed], .inl rfl⟩
  · obtain ⟨e, heq⟩ := Option.ne_none_iff_exists'.1 hpower
    exact ⟨'e', by simp [chars, heq, powered], .inr rfl⟩

theorem value_eq_of {n k : Nat} {e : Int} (hdigits : Nat.ofDigitChars 10 (s.whole ++ s.fraction) 0 = 10 ^ k * n)
    (he : s.power.getD 0 - s.fraction.length + k = e) : s.value = n * 10 ^ e := by
  rw [value, hdigits, ← he, zpow_add₀ (by norm_num)]
  push_cast
  rw [zpow_natCast]
  ring

end Spelling

structure Spells (text : String) (value : ℚ) (s : Spelling) : Prop where
  proper : s.Proper
  toList_eq : text.toList = s.chars
  value_eq : s.value = value

section Digits

theorem ofDigitChars_zeros_append (k : Nat) (digits : List Char) :
    Nat.ofDigitChars 10 (List.replicate k '0' ++ digits) 0 = Nat.ofDigitChars 10 digits 0 := by
  rw [Nat.ofDigitChars_append, Nat.ofDigitChars_replicate_zero, Nat.mul_zero]

theorem ofDigitChars_append_zeros (digits : List Char) (k : Nat) :
    Nat.ofDigitChars 10 (digits ++ List.replicate k '0') 0 = 10 ^ k * Nat.ofDigitChars 10 digits 0 := by
  rw [Nat.ofDigitChars_append, Nat.ofDigitChars_replicate_zero]

theorem isDigit_replicate {k : Nat} {c : Char} (hc : c ∈ List.replicate k '0') : c.isDigit = true := by
  rw [List.eq_of_mem_replicate hc]
  rfl

variable {digits : List Char} (hdigits : ∀ c ∈ digits, c.isDigit = true)

include hdigits

theorem spells_divided {e : Int} (he : e < 0) (hwhole : 0 < digits.length + e) :
    Spells (String.ofList (digits.take (digits.length + e).toNat) ++ "." ++
        String.ofList (digits.drop (digits.length + e).toNat)) (Nat.ofDigitChars 10 digits 0 * 10 ^ e)
      ⟨digits.take (digits.length + e).toNat, digits.drop (digits.length + e).toNat, none⟩ where
  proper := ⟨List.ne_nil_of_length_pos (by rw [List.length_take]; omega),
    fun c hc => hdigits c (List.mem_of_mem_take hc), fun c hc => hdigits c (List.mem_of_mem_drop hc)⟩
  toList_eq := by
    have hne : digits.drop (digits.length + e).toNat ≠ [] :=
      List.ne_nil_of_length_pos (by rw [List.length_drop]; omega)
    simp [Spelling.chars, Spelling.pointed_of_ne_nil hne, Spelling.powered]
  value_eq := Spelling.value_eq_of (k := 0) (by simp) (by simp; omega)

variable (hne : digits ≠ [])

include hne

theorem spells_whole (pointZero : Bool) {e : Int} (he : 0 ≤ e) :
    Spells (String.ofList digits ++ zeros e.toNat ++ (if pointZero then ".0" else ""))
      (Nat.ofDigitChars 10 digits 0 * 10 ^ e)
      ⟨digits ++ List.replicate e.toNat '0', if pointZero then ['0'] else [], none⟩ where
  proper := ⟨List.append_ne_nil_of_left_ne_nil hne _,
    fun c hc => (List.mem_append.1 hc).elim (hdigits c) isDigit_replicate, by cases pointZero <;> simp⟩
  toList_eq := by cases pointZero <;> simp [Spelling.chars, Spelling.pointed, Spelling.powered, zeros]
  value_eq := by
    cases pointZero with
    | false =>
      refine Spelling.value_eq_of (k := e.toNat) ?_ (by simp [he])
      simpa using ofDigitChars_append_zeros digits e.toNat
    | true =>
      refine Spelling.value_eq_of (k := e.toNat + 1) ?_ (by simp [he])
      simpa [List.replicate_succ'] using ofDigitChars_append_zeros digits (e.toNat + 1)

theorem spells_small {e : Int} (hwhole : digits.length + e ≤ 0) :
    Spells ("0." ++ zeros (-(digits.length + e)).toNat ++ String.ofList digits) (Nat.ofDigitChars 10 digits 0 * 10 ^ e)
      ⟨['0'], List.replicate (-(digits.length + e)).toNat '0' ++ digits, none⟩ where
  proper := ⟨by simp, by simp, fun c hc => (List.mem_append.1 hc).elim isDigit_replicate (hdigits c)⟩
  toList_eq := by simp [Spelling.chars, Spelling.pointed_of_ne_nil, Spelling.powered, zeros, hne]
  value_eq := by
    refine Spelling.value_eq_of (k := 0) ?_ (by simp; omega)
    simpa [List.replicate_succ] using ofDigitChars_zeros_append ((-(digits.length + e)).toNat + 1) digits

theorem positionalText_spelled (pointZero : Bool) (e : Int) :
    ∃ s, Spells (positionalText pointZero digits e) (Nat.ofDigitChars 10 digits 0 * 10 ^ e) s ∧
      (pointZero = true → s.Marked) := by
  unfold positionalText
  dsimp only
  split
  case isTrue he => exact ⟨_, spells_whole hdigits hne pointZero he, fun h => .inl (by simp [h])⟩
  case isFalse he =>
    have hlen := List.length_pos_of_ne_nil hne
    split
    case isTrue hwhole => exact ⟨_, spells_small hdigits hne (by omega), fun _ => .inl (by simp [hne])⟩
    case isFalse hwhole => exact ⟨_, spells_divided hdigits (by omega) (by omega), fun _ => .inl (by simp; omega)⟩

theorem spells_scientific (e : Int) :
    Spells (scientificText digits (e + digits.length - 1)) (Nat.ofDigitChars 10 digits 0 * 10 ^ e)
      ⟨digits.take 1, digits.drop 1, some (e + digits.length - 1)⟩ where
  proper := ⟨by simpa using hne, fun c hc => hdigits c (List.mem_of_mem_take hc),
    fun c hc => hdigits c (List.mem_of_mem_drop hc)⟩
  toList_eq := by
    rw [scientificText, Spelling.chars, Spelling.powered]
    cases digits.drop 1 <;> simp [Spelling.pointed]
  value_eq := by
    have hlen := List.length_pos_of_ne_nil hne
    refine Spelling.value_eq_of (k := 0) ?_ (by simp; omega)
    rw [List.take_append_drop, pow_zero, one_mul]

end Digits

theorem Numeral.text_eq_or (d : Numeral) (style : Style) :
    d.text style = positionalText style.pointZero (Nat.toDigits 10 d.digits) d.exponent ∨ d.text style =
      scientificText (Nat.toDigits 10 d.digits) (d.exponent + (Nat.toDigits 10 d.digits).length - 1) :=
  ite_eq_or_eq _ _ _

theorem Numeral.text_spelled (d : Numeral) (style : Style) :
    ∃ s, Spells (d.text style) d.value s ∧ (style.pointZero = true → s.Marked) := by
  have hne : Nat.toDigits 10 d.digits ≠ [] := Nat.toDigits_ne_nil
  have hdigits : ∀ c ∈ Nat.toDigits 10 d.digits, c.isDigit = true := fun c hc =>
    Nat.isDigit_of_mem_toDigits (by decide) (by decide) hc
  have hvalue : d.value = Nat.ofDigitChars 10 (Nat.toDigits 10 d.digits) 0 * 10 ^ d.exponent := by
    rw [Nat.ofDigitChars_ten_toDigits, value]
  rw [hvalue]
  obtain htext | htext := d.text_eq_or style
  · rw [htext]
    exact positionalText_spelled hdigits hne _ _
  · rw [htext]
    exact ⟨_, spells_scientific hdigits hne d.exponent, fun _ => .inr (by simp)⟩

section Doubles

variable {style : Style} {d d' : Double} {m m' : Nat} {q q' : Int}

def signed : Double → Bool
  | .notANumber => false
  | .infinite negative => negative
  | .finite negative _ _ => negative

def shown (m : Nat) (q : Int) : ℚ :=
  if m = 0 then 0 else (shortest (.ofDouble m q)).value

def magnitudeText (style : Style) : Double → String
  | .notANumber => "NaN"
  | .infinite _ => "inf"
  | .finite _ m q =>
    if m = 0 then (if style.pointZero then "0.0" else "0") else (shortest (.ofDouble m q)).text style

theorem text_eq (style : Style) (x : Float) :
    text style x = (if signed (ofFloat x) then "-" else "") ++ magnitudeText style (ofFloat x) := by
  unfold text
  cases ofFloat x with
  | notANumber => rfl
  | infinite negative => cases negative <;> rfl
  | finite negative m q =>
    cases negative
    · exact String.empty_append.symm
    · rfl

theorem shown_inj (hm : Canonical m q) (hm' : Canonical m' q') (h : shown m q = shown m' q') : m = m' ∧ q = q' := by
  unfold shown at h
  split at h
  case isTrue hzero =>
    split at h
    case isTrue hzero' =>
      subst hzero hzero'
      exact ⟨rfl, hm.exponent_of_zero.trans hm'.exponent_of_zero.symm⟩
    case isFalse hpos' => exact absurd h (shortest_pos (Nat.pos_of_ne_zero hpos')).ne
  case isFalse hpos =>
    split at h
    case isTrue hzero' => exact absurd h (shortest_pos (Nat.pos_of_ne_zero hpos)).ne'
    case isFalse hpos' => exact shortest_inj hm hm' (Nat.pos_of_ne_zero hpos) (Nat.pos_of_ne_zero hpos') h

theorem magnitudeText_spelled (style : Style) (negative : Bool) (m : Nat) (q : Int) :
    ∃ s, Spells (magnitudeText style (.finite negative m q)) (shown m q) s ∧ (style.pointZero = true → s.Marked) := by
  rw [magnitudeText, shown]
  split
  case isTrue =>
    cases style.pointZero with
    | true =>
      exact ⟨⟨['0'], ['0'], none⟩, ⟨⟨by simp, by simp, by simp⟩, rfl, zero_mul _⟩, fun _ => .inl (by simp)⟩
    | false => exact ⟨⟨['0'], [], none⟩, ⟨⟨by simp, by simp, by simp⟩, rfl, zero_mul _⟩, nofun⟩
  case isFalse => exact Numeral.text_spelled _ style

theorem magnitudeText_head (style : Style) (d : Double) :
    ∃ c cs, (magnitudeText style d).toList = c :: cs ∧ c ≠ '-' := by
  cases d with
  | notANumber => exact ⟨'N', ['a', 'N'], by simp [magnitudeText], by decide⟩
  | infinite => exact ⟨'i', ['n', 'f'], by simp [magnitudeText], by decide⟩
  | finite negative m q =>
    obtain ⟨s, hs, -⟩ := magnitudeText_spelled style negative m q
    obtain ⟨c, cs, heq, hc⟩ := hs.proper.chars_eq
    refine ⟨c, cs, hs.toList_eq.trans heq, ?_⟩
    rintro rfl
    exact absurd hc (by decide)

theorem magnitudeText_finite_ne {w : String} (hw : ∀ c ∈ w.toList.head?, c.isDigit = false) (negative : Bool) (m : Nat)
    (q : Int) : magnitudeText style (.finite negative m q) ≠ w := by
  rintro rfl
  obtain ⟨s, hs, -⟩ := magnitudeText_spelled style negative m q
  obtain ⟨c, cs, heq, hc⟩ := hs.proper.chars_eq
  rw [hw c (by rw [hs.toList_eq, heq]; rfl)] at hc
  cases hc

theorem finite_of_text_eq (hm : Canonical m q) (hm' : Canonical m' q') {s s' : Bool}
    (h : magnitudeText style (.finite s m q) = magnitudeText style (.finite s' m' q')) : m = m' ∧ q = q' := by
  obtain ⟨spelling, hs, -⟩ := magnitudeText_spelled style s m q
  obtain ⟨spelling', hs', -⟩ := magnitudeText_spelled style s' m' q'
  have hchars : spelling.chars = spelling'.chars := by rw [← hs.toList_eq, ← hs'.toList_eq, h]
  obtain rfl := hs.proper.chars_inj hs'.proper hchars
  exact shown_inj hm hm' (hs.value_eq.symm.trans hs'.value_eq)

theorem magnitudeText_eq_of_text {x y : Float} (h : text style x = text style y) :
    signed (ofFloat x) = signed (ofFloat y) ∧ magnitudeText style (ofFloat x) = magnitudeText style (ofFloat y) := by
  have hhead : ∀ d : Double, ∀ c ∈ (magnitudeText style d).toList.head?, ¬c = '-' := by
    intro d c hc
    obtain ⟨c', cs, heq, hne⟩ := magnitudeText_head style d
    rw [heq] at hc
    exact Option.some.inj hc ▸ hne
  have hsign : ∀ negative : Bool, ∀ c ∈ (if negative then "-" else "").toList, c = '-' := by simp
  rw [text_eq, text_eq, ← String.toList_inj, String.toList_append, String.toList_append] at h
  obtain ⟨hsigns, hmagnitudes⟩ := append_inj_of_forall (hsign _) (hsign _) (hhead _) (hhead _) h
  refine ⟨?_, String.toList_inj.1 hmagnitudes⟩
  revert hsigns
  cases signed (ofFloat x) <;> cases signed (ofFloat y) <;> simp

theorem eq_of_magnitudeText (hd : ∀ s m q, d = .finite s m q → Canonical m q)
    (hd' : ∀ s m q, d' = .finite s m q → Canonical m q) (hsign : signed d = signed d')
    (h : magnitudeText style d = magnitudeText style d') : d = d' := by
  have hnan : ∀ c ∈ "NaN".toList.head?, c.isDigit = false := by simp
  have hinf : ∀ c ∈ "inf".toList.head?, c.isDigit = false := by simp
  cases d with
  | notANumber =>
    cases d' with
    | notANumber => rfl
    | infinite => exact absurd h (by simp [magnitudeText])
    | finite s m q => exact absurd h.symm (magnitudeText_finite_ne hnan s m q)
  | infinite s =>
    cases d' with
    | notANumber => exact absurd h (by simp [magnitudeText])
    | infinite s' => rw [show s = s' from hsign]
    | finite s' m q => exact absurd h.symm (magnitudeText_finite_ne hinf s' m q)
  | finite s m q =>
    cases d' with
    | notANumber => exact absurd h (magnitudeText_finite_ne hnan s m q)
    | infinite => exact absurd h (magnitudeText_finite_ne hinf s m q)
    | finite s' m' q' =>
      obtain ⟨rfl, rfl⟩ := finite_of_text_eq (hd s m q rfl) (hd' s' m' q' rfl) h
      rw [show s = s' from hsign]

theorem text_injective (style : Style) : Function.Injective (text style) := by
  intro x y h
  obtain ⟨hsign, hmagnitude⟩ := magnitudeText_eq_of_text h
  exact ofFloat_injective (eq_of_magnitudeText (fun _ _ _ => ofFloat_canonical) (fun _ _ _ => ofFloat_canonical) hsign
    hmagnitude)

theorem mem_magnitudeText {c : Char} (hc : c ∈ (magnitudeText style d).toList) :
    c.isDigit = true ∨ c ∈ ['.', 'e', '-', 'N', 'a', 'i', 'n', 'f'] := by
  cases d with
  | notANumber | infinite =>
    simp only [magnitudeText, String.reduceToList] at hc
    exact .inr ((by simp : _ ⊆ ['.', 'e', '-', 'N', 'a', 'i', 'n', 'f']) hc)
  | finite s m q =>
    obtain ⟨spelling, hs, -⟩ := magnitudeText_spelled style s m q
    rw [hs.toList_eq] at hc
    exact (hs.proper.mem_chars hc).imp_right (List.mem_append_left ['N', 'a', 'i', 'n', 'f'])

theorem isWord_text (style : Style) (x : Float) : IsWord (text style x) := by
  have hmarks : ['.', 'e', '-', 'N', 'a', 'i', 'n', 'f'].all (· ∉ marks) = true := by decide
  have hsign : ∀ c ∈ (if signed (ofFloat x) then "-" else "").toList, c = '-' := by
    cases signed (ofFloat x) <;> simp
  rw [text_eq, IsWord, String.toList_append]
  refine ⟨?_, fun c hc => ?_⟩
  · obtain ⟨c, cs, heq, -⟩ := magnitudeText_head style (ofFloat x)
    rw [heq]
    exact List.append_ne_nil_of_right_ne_nil _ (List.cons_ne_nil c cs)
  · obtain hc | hc := List.mem_append.1 hc
    · rw [hsign c hc]
      decide
    · obtain hdigit | hmem := mem_magnitudeText hc
      · exact not_mem_marks_of_isDigit hdigit
      · exact of_decide_eq_true (List.all_eq_true.1 hmarks c hmem)

theorem exists_mem_magnitudeText (hstyle : style.pointZero = true) (d : Double) :
    ∃ c ∈ (magnitudeText style d).toList, c.isDigit = false ∧ c ≠ '-' := by
  cases d with
  | notANumber => exact ⟨'N', by simp [magnitudeText], by decide⟩
  | infinite => exact ⟨'i', by simp [magnitudeText], by decide⟩
  | finite s m q =>
    obtain ⟨spelling, hs, hmarked⟩ := magnitudeText_spelled style s m q
    obtain ⟨c, hc, rfl | rfl⟩ := (hmarked hstyle).exists_mem
    · exact ⟨'.', hs.toList_eq ▸ hc, by decide⟩
    · exact ⟨'e', hs.toList_eq ▸ hc, by decide⟩

theorem text_ne_int (hstyle : style.pointZero = true) (x : Float) (n : Int) : text style x ≠ toString n := by
  intro h
  obtain ⟨c, hc, hdigit, hminus⟩ := exists_mem_magnitudeText hstyle (ofFloat x)
  have hmem : c ∈ (toString n).toList := by
    rw [← h, text_eq, String.toList_append]
    exact List.mem_append_right _ hc
  obtain hdigit' | rfl := mem_toList_toString_int hmem
  · rw [hdigit] at hdigit'
    cases hdigit'
  · exact hminus rfl

theorem text_ne_name (style : Style) (x : Float) {name : String} (hname : IsName name) : text style x ≠ name := by
  obtain ⟨⟨c, cs, hchars, hletter, -⟩, hinf, hnan⟩ := hname
  have hminus : c ≠ '-' := by
    rintro rfl
    revert hletter
    decide
  have hdigit := isDigit_eq_false_of_isLetter hletter
  rw [text_eq]
  cases signed (ofFloat x) with
  | true =>
    rintro rfl
    exact hminus (List.head_eq_of_cons_eq (hchars.symm.trans (String.toList_append ..)))
  | false =>
    intro h
    obtain rfl : magnitudeText style (ofFloat x) = name := (String.empty_append ..).symm.trans h
    cases hx : ofFloat x with
    | notANumber => exact hnan (by rw [hx]; rfl)
    | infinite => exact hinf (by rw [hx]; rfl)
    | finite s m q =>
      refine magnitudeText_finite_ne (w := magnitudeText style (ofFloat x)) ?_ s m q (by rw [hx])
      rw [hchars]
      simpa using hdigit

/-- The texts of constants are told from each other and from everything else that is one word. -/
theorem realNotation_text : RealNotation (text constantStyle) where
  same x _ h := text_injective constantStyle h ▸ sameNumber_self x
  isWord := isWord_text constantStyle
  ne_int := text_ne_int rfl
  ne_name x _ hname := text_ne_name constantStyle x hname

end Doubles

end ArrayPlan.Decimal
