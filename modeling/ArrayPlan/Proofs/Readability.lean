import ArrayPlan.Proofs.FreeVariables
import ArrayPlan.Proofs.DecimalTexts

/-!
Unique readability. The text of an expression is made of words with marks between them: spaces, commas, parentheses and
brackets. The first word and the mark behind it tell what kind of expression begins, and what has been opened is closed
again, so the text of an expression shows where it ends. Two expressions of one text are the same, up to real constants
that are the same number.
-/

namespace ArrayPlan

section Words

/-- Nothing follows, or a mark that opens nothing. -/
def Closes (rest : List Char) : Prop :=
  ∀ c ∈ rest.head?, c ∈ [' ', ',', ')', ']']

def Begins (text : List Char) : Prop :=
  ∃ c cs, text = c :: cs ∧ (c ∉ marks ∨ c = '(')

theorem IsWord.begins {s : String} (h : IsWord s) : Begins s.toList := by
  obtain ⟨hne, hmarks⟩ := h
  obtain ⟨c, cs, hs⟩ := List.exists_cons_of_ne_nil hne
  exact ⟨c, cs, hs, .inl (hmarks c (hs ▸ List.mem_cons_self))⟩

theorem Begins.ne_cons {text rest rest' : List Char} (h : Begins text) {c : Char} (hc : c ∈ marks) (hne : c ≠ '(') :
    text ++ rest ≠ c :: rest' := by
  obtain ⟨d, cs, rfl, hd⟩ := h
  intro heq
  obtain ⟨rfl, -⟩ := List.cons.inj heq
  exact hd.elim (· hc) hne

end Words

section Listing

variable {γ : Type} {text : γ → String} {same : γ → γ → Prop}

def laterItems (items : List String) : List Char :=
  items.flatMap fun item => ',' :: ' ' :: item.toList

theorem toList_commaList_cons (item : String) (items : List String) :
    (commaList (item :: items)).toList = item.toList ++ laterItems items := by
  induction items generalizing item with
  | nil => exact (List.append_nil _).symm
  | cons next items ih =>
    rw [commaList, String.toList_append, String.toList_append, ih, List.append_assoc]
    rfl

/-- Before anything that closes, equal texts end at the same place and are texts of the same item. -/
def Readable (text : γ → String) (same : γ → γ → Prop) (a b : γ) : Prop :=
  ∀ rest rest', Closes rest → Closes rest' → (text a).toList ++ rest = (text b).toList ++ rest' → same a b ∧ rest = rest'

theorem closes_laterItems (items : List String) {close : Char} (hclose : close ∈ [')', ']']) (rest : List Char) :
    Closes (laterItems items ++ close :: rest) := by
  cases items with
  | nil =>
    intro c hc
    obtain rfl : close = c := Option.some.inj hc
    exact List.mem_cons_of_mem _ (List.mem_cons_of_mem _ hclose)
  | cons item items =>
    intro c hc
    obtain rfl : ',' = c := Option.some.inj hc
    decide

theorem laterItems_read {close : Char} (hclose : close ∈ [')', ']']) {as bs : List γ}
    (hread : ∀ a ∈ as, ∀ b ∈ bs, Readable text same a b) {rest rest' : List Char}
    (h : laterItems (as.map text) ++ close :: rest = laterItems (bs.map text) ++ close :: rest') :
    List.Forall₂ same as bs ∧ rest = rest' := by
  have hcomma : close ≠ ',' := by rintro rfl; revert hclose; decide
  induction as generalizing bs with
  | nil =>
    cases bs with
    | nil => exact ⟨.nil, List.tail_eq_of_cons_eq h⟩
    | cons b bs => exact absurd (List.head_eq_of_cons_eq h) hcomma
  | cons a as ih =>
    cases bs with
    | nil => exact absurd (List.head_eq_of_cons_eq h).symm hcomma
    | cons b bs =>
      simp only [laterItems, List.map_cons, List.flatMap_cons, List.cons_append, List.append_assoc, List.cons.injEq,
        true_and] at h
      obtain ⟨hab, hlater⟩ := hread a List.mem_cons_self b List.mem_cons_self _ _ (closes_laterItems _ hclose rest)
        (closes_laterItems _ hclose rest') h
      obtain ⟨hrest, hsame⟩ := ih
        (fun c hc d hd => hread c (List.mem_cons_of_mem _ hc) d (List.mem_cons_of_mem _ hd)) hlater
      exact ⟨.cons hab hrest, hsame⟩

theorem commaList_read {close : Char} (hclose : close ∈ [')', ']']) {as bs : List γ}
    (hread : ∀ a ∈ as, ∀ b ∈ bs, Readable text same a b) (has : ∀ a ∈ as, Begins (text a).toList)
    (hbs : ∀ b ∈ bs, Begins (text b).toList) {rest rest' : List Char}
    (h : (commaList (as.map text)).toList ++ close :: rest = (commaList (bs.map text)).toList ++ close :: rest') :
    List.Forall₂ same as bs ∧ rest = rest' := by
  have hmark : close ∈ marks ∧ close ≠ '(' := by
    simp only [List.mem_cons, List.not_mem_nil, or_false] at hclose
    obtain rfl | rfl := hclose <;> decide
  cases as with
  | nil =>
    cases bs with
    | nil => exact ⟨.nil, List.tail_eq_of_cons_eq h⟩
    | cons b bs =>
      rw [List.map_cons, toList_commaList_cons, List.append_assoc] at h
      exact absurd h.symm ((hbs b List.mem_cons_self).ne_cons hmark.1 hmark.2)
  | cons a as =>
    cases bs with
    | nil =>
      rw [List.map_cons, toList_commaList_cons, List.append_assoc] at h
      exact absurd h ((has a List.mem_cons_self).ne_cons hmark.1 hmark.2)
    | cons b bs =>
      rw [List.map_cons, List.map_cons, toList_commaList_cons, toList_commaList_cons, List.append_assoc,
        List.append_assoc] at h
      obtain ⟨hab, hlater⟩ := hread a List.mem_cons_self b List.mem_cons_self _ _ (closes_laterItems _ hclose rest)
        (closes_laterItems _ hclose rest') h
      obtain ⟨hrest, hsame⟩ := laterItems_read hclose
        (fun c hc d hd => hread c (List.mem_cons_of_mem _ hc) d (List.mem_cons_of_mem _ hd)) hlater
      exact ⟨.cons hab hrest, hsame⟩

theorem words_read {s s' : String} (hs : ∀ c ∈ s.toList, c ∉ marks) (hs' : ∀ c ∈ s'.toList, c ∉ marks)
    {rest rest' : List Char} (hrest : ∀ c ∈ rest.head?, c ∈ marks) (hrest' : ∀ c ∈ rest'.head?, c ∈ marks)
    (h : s.toList ++ rest = s'.toList ++ rest') : s = s' ∧ rest = rest' := by
  obtain ⟨hwords, hsame⟩ := append_inj_of_forall hs hs' (fun c hc => not_not_intro (hrest c hc))
    (fun c hc => not_not_intro (hrest' c hc)) h
  exact ⟨String.toList_inj.1 hwords, hsame⟩

theorem Closes.mem_marks {rest : List Char} (h : Closes rest) : ∀ c ∈ rest.head?, c ∈ marks := by
  have hmarks : [' ', ',', ')', ']'] ⊆ marks := by simp [marks]
  exact fun c hc => hmarks (h c hc)

theorem readable_words {s s' : String} (hs : IsWord s) (hs' : IsWord s') : Readable id Eq s s' :=
  fun _ _ hrest hrest' => words_read hs.2 hs'.2 hrest.mem_marks hrest'.mem_marks

theorem operation_read {l r l' r' : γ} (hl : Readable text same l l') (hr : Readable text same r r')
    {symbol symbol' : String} (hsymbol : IsWord symbol) (hsymbol' : IsWord symbol') {rest rest' : List Char}
    (h : (text l).toList ++ ' ' :: (symbol.toList ++ ' ' :: ((text r).toList ++ ')' :: rest)) =
      (text l').toList ++ ' ' :: (symbol'.toList ++ ' ' :: ((text r').toList ++ ')' :: rest'))) :
    same l l' ∧ symbol = symbol' ∧ same r r' ∧ rest = rest' := by
  have hspace : ∀ chars : List Char, Closes (' ' :: chars) := by simp [Closes]
  have hclose : ∀ chars : List Char, Closes (')' :: chars) := by simp [Closes]
  obtain ⟨hleft, hmiddle⟩ := hl _ _ (hspace _) (hspace _) h
  obtain ⟨hsymbols, hlast⟩ := words_read hsymbol.2 hsymbol'.2 (hspace _).mem_marks (hspace _).mem_marks
    (List.tail_eq_of_cons_eq hmiddle)
  obtain ⟨hright, hend⟩ := hr _ _ (hclose _) (hclose _) (List.tail_eq_of_cons_eq hlast)
  exact ⟨hleft, hsymbols, hright, List.tail_eq_of_cons_eq hend⟩

end Listing

namespace ArithOp

theorem isWord_symbol (op : ArithOp) : IsWord op.symbol := by
  cases op <;> decide

theorem symbol_injective {op op' : ArithOp} (h : op.symbol = op'.symbol) : op = op' := by
  cases op <;> cases op' <;> first | rfl | exact absurd h (by decide)

end ArithOp

namespace CompareOp

theorem isWord_symbol (op : CompareOp) : IsWord op.symbol := by
  cases op <;> decide

theorem symbol_injective {op op' : CompareOp} (h : op.symbol = op'.symbol) : op = op' := by
  cases op <;> cases op' <;> first | rfl | exact absurd h (by decide)

theorem symbol_ne (op : CompareOp) (op' : ArithOp) : op.symbol ≠ op'.symbol := by
  cases op <;> cases op' <;> decide

end CompareOp

namespace Expr

def ownNames : Expr → List String
  | var name => [name]
  | call rule _ => [rule]
  | load array _ => [array]
  | sum vars _ => vars
  | _ => []

/-- Every name anywhere in the expression is an identifier and not written like a real constant. -/
def Named (e : Expr) : Prop :=
  ∀ part ∈ e.subterms, ∀ name ∈ part.ownNames, IsName name

variable {realText : Float → String} {e a b : Expr}

instance (e : Expr) : Decidable e.Named :=
  decidable_of_iff (e.subterms.all fun part => part.ownNames.all (IsName ·)) (by simp [Named])

theorem Named.own (h : e.Named) : ∀ name ∈ e.ownNames, IsName name :=
  h e (by rw [subterms_eq]; exact List.mem_cons_self)

theorem Named.part (h : e.Named) {part : Expr} (hpart : part ∈ e.parts) : part.Named := by
  intro inner hinner
  refine h inner ?_
  rw [subterms_eq]
  exact List.mem_cons_of_mem _ (List.mem_flatMap.2 ⟨part, hpart, hinner⟩)

def operation? : Expr → Option (String × Expr × Expr)
  | arith op lhs rhs => some (op.symbol, lhs, rhs)
  | compare op lhs rhs => some (op.symbol, lhs, rhs)
  | _ => none

variable (realText) in
def word : Expr → String
  | int n => toString n
  | real x => realText x
  | var name => name
  | call rule _ => rule
  | load array _ => array
  | arith _ _ _ | compare _ _ _ => ""
  | sum _ _ => "sum"

variable (realText) in
def afterWord : Expr → List Char
  | call _ args => '(' :: ((commaList (args.map (textWith realText))).toList ++ [')'])
  | load _ index => '[' :: ((commaList (index.map (textWith realText))).toList ++ [']'])
  | arith op lhs rhs => '(' :: ((textWith realText lhs).toList ++ ' ' :: (op.symbol.toList ++
      ' ' :: ((textWith realText rhs).toList ++ [')'])))
  | compare op lhs rhs => '(' :: ((textWith realText lhs).toList ++ ' ' :: (op.symbol.toList ++
      ' ' :: ((textWith realText rhs).toList ++ [')'])))
  | sum vars body => '(' :: '[' :: ((commaList (vars.map id)).toList ++
      ']' :: ',' :: ' ' :: ((textWith realText body).toList ++ [')']))
  | _ => []

theorem textsWith_eq_map (es : List Expr) : textsWith realText es = es.map (textWith realText) := by
  induction es with
  | nil => rfl
  | cons e es ih => rw [textsWith, ih, List.map_cons]

theorem toList_textWith (e : Expr) : (e.textWith realText).toList = (e.word realText).toList ++ e.afterWord realText := by
  cases e <;> simp [textWith, word, afterWord, textsWith_eq_map]

section AfterWord

variable (rest : List Char)

theorem afterWord_call (rule : String) (args : List Expr) : (call rule args).afterWord realText ++ rest =
    '(' :: ((commaList (args.map (textWith realText))).toList ++ ')' :: rest) := by
  simp [afterWord]

theorem afterWord_load (array : String) (index : List Expr) : (load array index).afterWord realText ++ rest =
    '[' :: ((commaList (index.map (textWith realText))).toList ++ ']' :: rest) := by
  simp [afterWord]

theorem afterWord_operation {symbol : String} {lhs rhs : Expr} (h : e.operation? = some (symbol, lhs, rhs)) :
    e.afterWord realText ++ rest = '(' :: ((textWith realText lhs).toList ++ ' ' :: (symbol.toList ++
      ' ' :: ((textWith realText rhs).toList ++ ')' :: rest))) := by
  cases e with
  | arith | compare =>
    simp only [operation?, Option.some.injEq, Prod.mk.injEq] at h
    obtain ⟨rfl, rfl, rfl⟩ := h
    simp [afterWord]
  | _ => cases h

theorem afterWord_sum (vars : List String) (body : Expr) : (sum vars body).afterWord realText ++ rest =
    '(' :: '[' :: ((commaList (vars.map id)).toList ++
      ']' :: ',' :: ' ' :: ((textWith realText body).toList ++ ')' :: rest)) := by
  simp [afterWord]

end AfterWord

theorem sameAll_of_forall₂ {as bs : List Expr} (h : List.Forall₂ (fun a b => same a b = true) as bs) :
    sameAll as bs = true := by
  induction h with
  | nil => rfl
  | cons hab _ ih => rw [sameAll, hab, ih]; rfl

theorem word_plain (hreal : RealNotation realText) (h : e.Named) : ∀ c ∈ (e.word realText).toList, c ∉ marks := by
  have hname := h.own
  cases e with
  | int n => exact (isWord_toString_int n).2
  | real x => exact (hreal.isWord x).2
  | var name | call name _ | load name _ => exact (hname name List.mem_cons_self).1.isWord.2
  | arith | compare => exact fun c hc => nomatch hc
  | sum => exact (by decide : IsWord "sum").2

theorem head_afterWord (e : Expr) {rest : List Char} (hrest : Closes rest) :
    ∀ c ∈ (e.afterWord realText ++ rest).head?, c ∈ marks := by
  have hround : ∀ (chars : List Char), ∀ c ∈ ('(' :: chars).head?, c ∈ marks := by simp [marks]
  have hsquare : ∀ (chars : List Char), ∀ c ∈ ('[' :: chars).head?, c ∈ marks := by simp [marks]
  cases e with
  | int | real | var => exact hrest.mem_marks
  | call | arith | compare | sum => exact hround _
  | load => exact hsquare _

theorem afterWord_eq_nil_of_closes {rest : List Char} (h : Closes (e.afterWord realText ++ rest)) :
    e.afterWord realText = [] := by
  have hround : ∀ chars : List Char, ¬Closes ('(' :: chars) := by simp [Closes]
  have hsquare : ∀ chars : List Char, ¬Closes ('[' :: chars) := by simp [Closes]
  cases e with
  | int | real | var => rfl
  | call | arith | compare | sum => exact absurd h (hround _)
  | load => exact absurd h (hsquare _)

theorem begins_textWith (hreal : RealNotation realText) (h : e.Named) : Begins (e.textWith realText).toList := by
  have hname := h.own
  have hbegins : ∀ {s : String} {rest : List Char}, IsWord s → Begins (s.toList ++ rest) := by
    intro s rest hs
    obtain ⟨c, cs, heq, hc⟩ := hs.begins
    exact ⟨c, cs ++ rest, by rw [heq, List.cons_append], hc⟩
  rw [toList_textWith]
  cases e with
  | int n => exact hbegins (isWord_toString_int n)
  | real x => exact hbegins (hreal.isWord x)
  | var name | call name _ | load name _ => exact hbegins (hname name List.mem_cons_self).1.isWord
  | arith | compare => exact ⟨'(', _, rfl, .inr rfl⟩
  | sum => exact hbegins (by decide : IsWord "sum")

theorem same_of_word_eq (hreal : RealNotation realText) (ha : a.Named) (hb : b.Named)
    (hword : a.word realText = b.word realText) (hnil : a.afterWord realText = [])
    (hnil' : b.afterWord realText = []) : a.same b = true := by
  have hname := ha.own
  have hname' := hb.own
  cases a with
  | int m =>
    cases b with
    | int n => exact beq_iff_eq.2 (Int.repr_injective hword)
    | real y => exact absurd hword.symm (hreal.ne_int y m)
    | var name => exact absurd hword (toString_int_ne_of_isIdentifier (hname' name List.mem_cons_self).1 m)
    | _ => cases hnil'
  | real x =>
    cases b with
    | int n => exact absurd hword (hreal.ne_int x n)
    | real y => exact hreal.same x y hword
    | var name => exact absurd hword (hreal.ne_name x name (hname' name List.mem_cons_self))
    | _ => cases hnil'
  | var name =>
    cases b with
    | int n => exact absurd hword.symm (toString_int_ne_of_isIdentifier (hname name List.mem_cons_self).1 n)
    | real y => exact absurd hword.symm (hreal.ne_name y name (hname name List.mem_cons_self))
    | var name' => exact beq_iff_eq.2 hword
    | _ => cases hnil'
  | _ => cases hnil

theorem commaList_ne_square (hreal : RealNotation realText) {es : List Expr} (h : ∀ e ∈ es, e.Named)
    (rest rest' : List Char) : (commaList (es.map (textWith realText))).toList ++ ')' :: rest ≠ '[' :: rest' := by
  cases es with
  | nil => exact fun heq => absurd (List.head_eq_of_cons_eq heq) (by decide)
  | cons e es =>
    rw [List.map_cons, toList_commaList_cons, List.append_assoc]
    exact (begins_textWith hreal (h e List.mem_cons_self)).ne_cons (by decide) (by decide)

theorem exists_operation (hreal : RealNotation realText) (h : e.Named) (hword : e.word realText = "") :
    ∃ symbol lhs rhs, e.operation? = some (symbol, lhs, rhs) := by
  have hname := h.own
  have hempty : ¬IsWord "" := fun h => h.1 rfl
  cases e with
  | int n => exact absurd (hword ▸ isWord_toString_int n) hempty
  | real x => exact absurd (hword ▸ hreal.isWord x) hempty
  | var name | call name _ | load name _ => exact absurd (hword ▸ (hname name List.mem_cons_self).1.isWord) hempty
  | arith | compare => exact ⟨_, _, _, rfl⟩
  | sum => exact absurd hword (by simp [word])

theorem isWord_of_operation? {symbol : String} {lhs rhs : Expr} (h : e.operation? = some (symbol, lhs, rhs)) :
    IsWord symbol ∧ lhs ∈ e.parts ∧ rhs ∈ e.parts := by
  cases e with
  | arith op _ _ | compare op _ _ =>
    simp only [operation?, Option.some.injEq, Prod.mk.injEq] at h
    obtain ⟨rfl, rfl, rfl⟩ := h
    exact ⟨op.isWord_symbol, by simp [parts]⟩
  | _ => cases h

theorem same_of_operation? {symbol : String} {lhs rhs lhs' rhs' : Expr} (h : a.operation? = some (symbol, lhs, rhs))
    (h' : b.operation? = some (symbol, lhs', rhs')) (hlhs : lhs.same lhs' = true) (hrhs : rhs.same rhs' = true) :
    a.same b = true := by
  cases a with
  | arith op _ _ =>
    simp only [operation?, Option.some.injEq, Prod.mk.injEq] at h
    obtain ⟨hop, rfl, rfl⟩ := h
    cases b with
    | arith op' _ _ =>
      simp only [operation?, Option.some.injEq, Prod.mk.injEq] at h'
      obtain ⟨hop', rfl, rfl⟩ := h'
      simp [same, ArithOp.symbol_injective (hop.trans hop'.symm), hlhs, hrhs]
    | compare op' _ _ =>
      simp only [operation?, Option.some.injEq, Prod.mk.injEq] at h'
      exact absurd (h'.1.trans hop.symm) (op'.symbol_ne op)
    | _ => cases h'
  | compare op _ _ =>
    simp only [operation?, Option.some.injEq, Prod.mk.injEq] at h
    obtain ⟨hop, rfl, rfl⟩ := h
    cases b with
    | arith op' _ _ =>
      simp only [operation?, Option.some.injEq, Prod.mk.injEq] at h'
      exact absurd (hop.trans h'.1.symm) (op.symbol_ne op')
    | compare op' _ _ =>
      simp only [operation?, Option.some.injEq, Prod.mk.injEq] at h'
      obtain ⟨hop', rfl, rfl⟩ := h'
      simp [same, CompareOp.symbol_injective (hop.trans hop'.symm), hlhs, hrhs]
    | _ => cases h'
  | _ => cases h

theorem exists_call_or_sum {rest chars : List Char} (hrest : Closes rest) (hword : e.word realText ≠ "")
    (h : e.afterWord realText ++ rest = '(' :: chars) :
    (∃ rule args, e = call rule args) ∨ ∃ vars body, e = sum vars body := by
  cases e with
  | int | real | var => exact absurd (hrest '(' (by rw [show rest = '(' :: chars from h]; rfl)) (by decide)
  | call rule args => exact .inl ⟨rule, args, rfl⟩
  | load => simp [afterWord] at h
  | arith | compare => exact absurd rfl hword
  | sum vars body => exact .inr ⟨vars, body, rfl⟩

theorem exists_load {rest chars : List Char} (hrest : Closes rest) (h : e.afterWord realText ++ rest = '[' :: chars) :
    ∃ array index, e = load array index := by
  cases e with
  | int | real | var => exact absurd (hrest '[' (by rw [show rest = '[' :: chars from h]; rfl)) (by decide)
  | load array index => exact ⟨array, index, rfl⟩
  | _ => simp [afterWord] at h

variable (realText) in
def Legible (e : Expr) : Prop :=
  ∀ other : Expr, other.Named → Readable (textWith realText) (fun a b => a.same b = true) e other

section Kinds

variable {rest rest' : List Char}

theorem exprs_read (hreal : RealNotation realText) {es others : List Expr} (hlegible : ∀ e ∈ es, e.Legible realText)
    (hes : ∀ e ∈ es, e.Named) (hothers : ∀ e ∈ others, e.Named) {close : Char} (hclose : close ∈ [')', ']'])
    (h : (commaList (es.map (textWith realText))).toList ++ close :: rest =
      (commaList (others.map (textWith realText))).toList ++ close :: rest') :
    sameAll es others = true ∧ rest = rest' := by
  obtain ⟨hsame, hend⟩ := commaList_read hclose (fun e he other hother => hlegible e he other (hothers other hother))
    (fun e he => begins_textWith hreal (hes e he)) (fun e he => begins_textWith hreal (hothers e he)) h
  exact ⟨sameAll_of_forall₂ hsame, hend⟩

theorem call_read (hreal : RealNotation realText) {rule : String} {args : List Expr} (ha : (call rule args).Named)
    (hargs : ∀ arg ∈ args, arg.Legible realText) (hb : b.Named) (hrest : Closes rest')
    (hword : rule = b.word realText)
    (hafter : (call rule args).afterWord realText ++ rest = b.afterWord realText ++ rest') :
    (call rule args).same b = true ∧ rest = rest' := by
  have hne : rule ≠ "" := by
    rintro rfl
    exact (ha.own "" List.mem_cons_self).1.isWord.1 rfl
  rw [afterWord_call] at hafter
  obtain ⟨rule', args', rfl⟩ | ⟨vars, body, rfl⟩ := exists_call_or_sum hrest (hword ▸ hne) hafter.symm
  · obtain rfl : rule = rule' := hword
    rw [afterWord_call] at hafter
    have hothers : ∀ arg ∈ args', arg.Named := fun arg harg => hb.part harg
    obtain ⟨hsame, hend⟩ := exprs_read hreal hargs (fun arg harg => ha.part harg) hothers (by decide)
      (List.tail_eq_of_cons_eq hafter)
    exact ⟨by simp [same, hsame], hend⟩
  · rw [afterWord_sum] at hafter
    exact absurd (List.tail_eq_of_cons_eq hafter) (commaList_ne_square hreal (fun arg harg => ha.part harg) _ _)

theorem load_read (hreal : RealNotation realText) {array : String} {index : List Expr} (ha : (load array index).Named)
    (hindex : ∀ e ∈ index, e.Legible realText) (hb : b.Named) (hrest : Closes rest') (hword : array = b.word realText)
    (hafter : (load array index).afterWord realText ++ rest = b.afterWord realText ++ rest') :
    (load array index).same b = true ∧ rest = rest' := by
  rw [afterWord_load] at hafter
  obtain ⟨array', index', rfl⟩ := exists_load hrest hafter.symm
  obtain rfl : array = array' := hword
  rw [afterWord_load] at hafter
  have hothers : ∀ e ∈ index', e.Named := fun e he => hb.part he
  obtain ⟨hsame, hend⟩ := exprs_read hreal hindex (fun e he => ha.part he) hothers (by decide)
    (List.tail_eq_of_cons_eq hafter)
  exact ⟨by simp [same, hsame], hend⟩

theorem operation_same (hreal : RealNotation realText) {symbol : String} {lhs rhs : Expr}
    (ha : a.operation? = some (symbol, lhs, rhs)) (hlhs : lhs.Legible realText) (hrhs : rhs.Legible realText)
    (hb : b.Named) (hword : b.word realText = "")
    (hafter : a.afterWord realText ++ rest = b.afterWord realText ++ rest') : a.same b = true ∧ rest = rest' := by
  obtain ⟨symbol', lhs', rhs', hb'⟩ := exists_operation hreal hb hword
  obtain ⟨hsymbol', hleft, hright⟩ := isWord_of_operation? hb'
  rw [afterWord_operation rest ha, afterWord_operation rest' hb'] at hafter
  obtain ⟨hsame, rfl, hsame', hend⟩ := operation_read (hlhs lhs' (hb.part hleft)) (hrhs rhs' (hb.part hright))
    (isWord_of_operation? ha).1 hsymbol' (List.tail_eq_of_cons_eq hafter)
  exact ⟨same_of_operation? ha hb' hsame hsame', hend⟩

theorem sum_read (hreal : RealNotation realText) {vars : List String} {body : Expr} (ha : (sum vars body).Named)
    (hbody : body.Legible realText) (hb : b.Named) (hrest : Closes rest') (hword : "sum" = b.word realText)
    (hafter : (sum vars body).afterWord realText ++ rest = b.afterWord realText ++ rest') :
    (sum vars body).same b = true ∧ rest = rest' := by
  rw [afterWord_sum] at hafter
  obtain ⟨rule, args, rfl⟩ | ⟨vars', body', rfl⟩ :=
    exists_call_or_sum hrest (hword ▸ (by decide : "sum" ≠ "")) hafter.symm
  · rw [afterWord_call] at hafter
    exact absurd (List.tail_eq_of_cons_eq hafter).symm (commaList_ne_square hreal (fun arg harg => hb.part harg) _ _)
  · rw [afterWord_sum] at hafter
    have hvars : ∀ name ∈ vars, IsWord name := fun name hname => (ha.own name hname).1.isWord
    have hvars' : ∀ name ∈ vars', IsWord name := fun name hname => (hb.own name hname).1.isWord
    obtain ⟨hsame, hbehind⟩ := commaList_read (by decide)
      (fun name hname other hother => readable_words (hvars name hname) (hvars' other hother))
      (fun name hname => (hvars name hname).begins) (fun name hname => (hvars' name hname).begins)
      (List.tail_eq_of_cons_eq (List.tail_eq_of_cons_eq hafter))
    obtain rfl : vars = vars' := List.forall₂_eq_eq_eq ▸ hsame
    obtain ⟨hbodies, hend⟩ := hbody body' (hb.part List.mem_cons_self) _ _ (by simp [Closes]) (by simp [Closes])
      (List.tail_eq_of_cons_eq (List.tail_eq_of_cons_eq hbehind))
    exact ⟨by simp [same, hbodies], List.tail_eq_of_cons_eq hend⟩

end Kinds

/-- The first word and the mark that is opened behind it tell which kind of expression it is, and its parts are read one
after the other. -/
theorem Named.legible (hreal : RealNotation realText) {a : Expr} (ha : a.Named) : a.Legible realText := by
  induction a using parts_induction with
  | step a ih =>
    have hparts : ∀ part ∈ a.parts, part.Legible realText := fun part hpart => ih part hpart (ha.part hpart)
    intro b hb rest rest' hrest hrest' h
    rw [toList_textWith, toList_textWith, List.append_assoc, List.append_assoc] at h
    obtain ⟨hword, hafter⟩ := words_read (word_plain hreal ha) (word_plain hreal hb) (a.head_afterWord hrest)
      (b.head_afterWord hrest') h
    cases a with
    | int | real | var =>
      obtain rfl : rest = b.afterWord realText ++ rest' := hafter
      have hnil := afterWord_eq_nil_of_closes hrest
      exact ⟨same_of_word_eq hreal ha hb hword rfl hnil, by rw [hnil, List.nil_append]⟩
    | call rule args => exact call_read hreal ha hparts hb hrest' hword hafter
    | load array index => exact load_read hreal ha hparts hb hrest' hword hafter
    | arith op lhs rhs | compare op lhs rhs =>
      exact operation_same hreal rfl (hparts lhs (by simp [parts])) (hparts rhs (by simp [parts])) hb hword.symm hafter
    | sum vars body => exact sum_read hreal ha (hparts body List.mem_cons_self) hb hrest' hword hafter

/-- Expressions with one text are the same. All that is asked of the texts of real constants is that they are words for
their numbers, as those of the style of constants are. -/
theorem text_unambiguous {a b : Expr} (ha : a.Named) (hb : b.Named) : (a.text = b.text → a.same b = true) ∧
    ∀ realText, RealNotation realText → a.textWith realText = b.textWith realText → a.same b = true := by
  have hwith : ∀ realText, RealNotation realText → a.textWith realText = b.textWith realText → a.same b = true := by
    intro realText hreal h
    have hclosed : Closes [] := by simp [Closes]
    exact (ha.legible hreal b hb [] [] hclosed hclosed (congrArg (String.toList · ++ []) h)).1
  exact ⟨hwith _ Decimal.realNotation_text, hwith⟩

def alikeLooking (invalid : Float) : Expr :=
  .arith .floorDiv (.sum ["i", "j"] (.arith .sub (.load "A" [.var "i", .arith .rem (.var "j") (.int (-3))]) (.int (-2))))
    (.call "sum" [.arith .div (.real 0.5) (.real invalid), .call "f" [], .compare .le (.var "i") (.real (-1e-7))])

theorem text_unambiguous_alikeLooking :
    (alikeLooking (0 / 0)).text = "(sum([i, j], (A[i, (j % -3)] - -2)) // sum((0.5 / NaN), f(), (i <= -1e-7)))" ∧
    (alikeLooking (0 / 0)).text = (alikeLooking (1 / 0 - 1 / 0)).text ∧
    (alikeLooking (0 / 0)).same (alikeLooking (1 / 0 - 1 / 0)) = true := by
  have htext : (alikeLooking (0 / 0)).text = (alikeLooking (1 / 0 - 1 / 0)).text := by decide +kernel
  exact ⟨by decide +kernel, htext, (text_unambiguous (by decide +kernel) (by decide +kernel)).1 htext⟩

end Expr

end ArrayPlan
