import ArrayPlan.Execution.Run
import ArrayPlan.Proofs.Box

/-!
Contents of memories. A memory is seen through what a load answers at each array and index; an element is
there when its index lies in the buffer. A store succeeds where there is an element, and changes that one
only.
-/

namespace ArrayPlan

theorem offsetFrom?_injective {start start' : Nat} {index index' : List Int} {lengths : List Nat}
    {place : Nat} (hlen : index.length = lengths.length) (hlen' : index'.length = lengths.length)
    (h : offsetFrom? start index lengths = some place)
    (h' : offsetFrom? start' index' lengths = some place) : start = start' ∧ index = index' := by
  induction lengths generalizing index index' start start' with
  | nil =>
    obtain rfl := List.length_eq_zero_iff.1 hlen
    obtain rfl := List.length_eq_zero_iff.1 hlen'
    simp only [offsetFrom?, Option.some.injEq] at h h'
    exact ⟨h.trans h'.symm, rfl⟩
  | cons n lengths ih =>
    cases index with
    | nil => cases hlen
    | cons i index =>
      cases index' with
      | nil => cases hlen'
      | cons i' index' =>
        simp only [offsetFrom?] at h h'
        split at h
        · cases h
        · split at h'
          · cases h'
          · rename_i hi hi'
            obtain ⟨hstart, htail⟩ := ih (Nat.succ.inj hlen) (Nat.succ.inj hlen') h h'
            -- Both sides are a number of rows and a position within a row of length `n`.
            have hquot : start = start' := by
              have hdiv := congrArg (· / n) hstart
              have hpos : 0 < n := by omega
              have hsmall : i.toNat / n = 0 := Nat.div_eq_of_lt (by omega)
              have hsmall' : i'.toNat / n = 0 := Nat.div_eq_of_lt (by omega)
              simpa only [Nat.mul_comm _ n, Nat.mul_add_div hpos, hsmall, hsmall', Nat.add_zero] using hdiv
            subst hquot
            have hpos : i.toNat = i'.toNat := by omega
            have hsame : i = i' := by omega
            exact ⟨rfl, by rw [hsame, htail]⟩

theorem offsetFrom?_isSome_iff {start : Nat} {index : List Int} {lengths : List Nat}
    (hlen : index.length = lengths.length) :
    (offsetFrom? start index lengths).isSome ↔ InBox index lengths := by
  induction lengths generalizing index start with
  | nil =>
    obtain rfl := List.length_eq_zero_iff.1 hlen
    simp [offsetFrom?, InBox]
  | cons n lengths ih =>
    cases index with
    | nil => cases hlen
    | cons i index =>
      simp only [offsetFrom?, InBox]
      split
      · rename_i hi
        refine ⟨fun h => absurd h (by simp), fun h => ?_⟩
        have := h.1
        omega
      · rename_i hi
        rw [ih (Nat.succ.inj hlen)]
        exact ⟨fun h => ⟨by omega, h⟩, fun h => h.2⟩

namespace Buffer

variable {α : Type}

theorem offset_injective {b : Buffer α} {index index' : List Int} {place : Nat}
    (h : b.offset index = .ok place) (h' : b.offset index' = .ok place) : index = index' := by
  unfold offset at h h'
  split at h <;> split at h' <;> try contradiction
  rename_i hlen hlen'
  cases hp : offsetFrom? 0 index b.lengths <;> rw [hp] at h <;> try contradiction
  cases hp' : offsetFrom? 0 index' b.lengths <;> rw [hp'] at h' <;> try contradiction
  cases h
  cases h'
  exact (offsetFrom?_injective hlen hlen' hp hp').2

theorem offset_ok_iff {b : Buffer α} {index : List Int} :
    (∃ place, b.offset index = .ok place) ↔ InBox index b.lengths := by
  unfold offset
  split
  · rename_i hlen
    have hplace := @offsetFrom?_isSome_iff 0 index b.lengths hlen
    rw [← hplace]
    cases offsetFrom? 0 index b.lengths <;> simp
  · rename_i hlen
    refine ⟨fun h => ?_, fun h => absurd h.length_eq hlen⟩
    obtain ⟨_, hp⟩ := h
    cases hp

theorem read_write [Scalar α] {b b' : Buffer α} {index : List Int} {v : α}
    (h : b.write index v = .ok b') (other : List Int) :
    b'.read other = if other = index then .ok v else b.read other := by
  unfold write at h
  cases hp : b.offset index with
  | error e => rw [hp] at h; cases h
  | ok place =>
    rw [hp] at h
    cases h
    unfold read
    have hoffset : ({ b with stored := b.stored.insert place v } : Buffer α).offset other = b.offset other := rfl
    rw [hoffset]
    split
    · rename_i hother
      rw [hother, hp]
      simp [Except.map, element]
    · rename_i hother
      cases hq : b.offset other with
      | error e => rfl
      | ok place' =>
        have hne : compare place place' ≠ .eq := by
          intro hsame
          rw [Std.LawfulEqCmp.eq_of_compare hsame] at hp
          exact hother (offset_injective hq hp)
        simp [Except.map, element, Std.TreeMap.getD_insert, hne]

end Buffer

namespace Memory

variable {α : Type} [Scalar α]

def load? (m : Memory α) (array : String) (index : List Int) : Option α :=
  ((m.buffer array).bind fun b => b.read index).toOption

theorem load?_eq_of_buffer? {m : Memory α} {array : String} {b : Buffer α} (h : m.buffer? array = some b)
    (index : List Int) : m.load? array index = (b.read index).toOption := by
  simp only [load?, buffer, h]
  rfl

theorem load?_eq_none {m : Memory α} {array : String} (h : m.buffer? array = none) (index : List Int) :
    m.load? array index = none := by
  simp only [load?, buffer, h]
  rfl

theorem load?_isSome_iff {m : Memory α} {array : String} {b : Buffer α} (h : m.buffer? array = some b)
    {index : List Int} : (m.load? array index).isSome ↔ InBox index b.lengths := by
  rw [load?_eq_of_buffer? h, ← Buffer.offset_ok_iff, Buffer.read]
  cases b.offset index <;> simp [Except.map, Except.toOption]

omit [Scalar α] in
theorem lookup_modify {array : String} {change : Buffer α → Except ExecutionFault (Buffer α)}
    {buffers buffers' : List (String × Buffer α)} (h : modify array change buffers = .ok buffers') :
    ∃ b b', buffers.lookup array = some b ∧ change b = .ok b' ∧
      ∀ other, buffers'.lookup other = if other = array then some b' else buffers.lookup other := by
  induction buffers generalizing buffers' with
  | nil => cases h
  | cons entry rest ih =>
    obtain ⟨name, b⟩ := entry
    unfold modify at h
    split at h
    · rename_i hname
      subst hname
      cases hb : change b with
      | error e => rw [hb] at h; cases h
      | ok b' =>
        rw [hb] at h
        cases h
        refine ⟨b, b', by simp, hb, fun other => ?_⟩
        by_cases ho : other = name
        · simp [ho]
        · have hne : (other == name) = false := by simpa using ho
          simp [List.lookup_cons, hne, ho]
    · rename_i hname
      cases hr : modify array change rest with
      | error e => rw [hr] at h; cases h
      | ok rest' =>
        rw [hr] at h
        cases h
        obtain ⟨c, c', hc, hchange, hlookup⟩ := ih hr
        have hne : (array == name) = false := by simpa using fun he => hname he.symm
        refine ⟨c, c', by simpa [List.lookup_cons, hne] using hc, hchange, fun other => ?_⟩
        by_cases ho : other = name
        · subst ho
          rw [if_neg hname, List.lookup_cons_self, List.lookup_cons_self]
        · have hon : (other == name) = false := by simpa using ho
          rw [List.lookup_cons, hon, List.lookup_cons, hon]
          exact hlookup other

theorem load?_store {m m' : Memory α} {array : String} {index : List Int} {v : α}
    (h : m.store array index v = .ok m') (other : String) (otherIndex : List Int) :
    m'.load? other otherIndex =
      if other = array ∧ otherIndex = index then some v else m.load? other otherIndex := by
  unfold store at h
  cases hb : modify array (fun b => b.write index v) m.buffers with
  | error e => rw [hb] at h; cases h
  | ok buffers =>
    rw [hb] at h
    cases h
    obtain ⟨b, b', hlookup, hwrite, hothers⟩ := lookup_modify hb
    by_cases ho : other = array
    · subst ho
      have hnew : (Memory.mk buffers).buffer? other = some b' := by
        rw [buffer?, hothers other, if_pos rfl]
      rw [load?_eq_of_buffer? hnew, load?_eq_of_buffer? hlookup, Buffer.read_write hwrite]
      by_cases hi : otherIndex = index <;> simp [hi, Except.toOption]
    · have hsame : (Memory.mk buffers).buffer? other = m.buffer? other := by
        rw [buffer?, hothers other, if_neg ho, buffer?]
      simp only [load?, buffer, hsame, ho, false_and, if_false]

omit [Scalar α] in
theorem modify_ok {array : String} {change : Buffer α → Except ExecutionFault (Buffer α)}
    {buffers : List (String × Buffer α)} {b b' : Buffer α} (h : buffers.lookup array = some b)
    (hb : change b = .ok b') : ∃ buffers', modify array change buffers = .ok buffers' := by
  induction buffers with
  | nil => cases h
  | cons entry rest ih =>
    obtain ⟨name, c⟩ := entry
    unfold modify
    split
    · rename_i hname
      rw [hname, List.lookup_cons_self, Option.some.injEq] at h
      rw [h, hb]
      exact ⟨_, rfl⟩
    · rename_i hname
      have hne : (array == name) = false := by simpa using fun he => hname he.symm
      rw [List.lookup_cons, hne] at h
      obtain ⟨rest', hrest⟩ := ih h
      rw [hrest]
      exact ⟨_, rfl⟩

omit [Scalar α] in
theorem lengths_store {m m' : Memory α} {array : String} {index : List Int} {v : α}
    (h : m.store array index v = .ok m') (other : String) :
    (m'.buffer? other).map Buffer.lengths = (m.buffer? other).map Buffer.lengths := by
  unfold store at h
  cases hb : modify array (fun b => b.write index v) m.buffers with
  | error e => rw [hb] at h; cases h
  | ok buffers =>
    rw [hb] at h
    cases h
    obtain ⟨b, b', hlookup, hwrite, hothers⟩ := lookup_modify hb
    rw [buffer?, hothers other, buffer?]
    split
    · rename_i ho
      unfold Buffer.write at hwrite
      cases hp : b.offset index with
      | error e => rw [hp] at hwrite; cases hwrite
      | ok place =>
        rw [hp] at hwrite
        cases hwrite
        rw [ho, hlookup]
        rfl
    · rfl

theorem store_ok_iff {m : Memory α} {array : String} {index : List Int} {v : α} :
    (∃ m', m.store array index v = .ok m') ↔ (m.load? array index).isSome := by
  constructor
  · rintro ⟨m', h⟩
    unfold store at h
    cases hb : modify array (fun b => b.write index v) m.buffers with
    | error e => rw [hb] at h; cases h
    | ok buffers =>
      obtain ⟨b, b', hlookup, hwrite, _⟩ := lookup_modify hb
      rw [load?_isSome_iff hlookup]
      unfold Buffer.write at hwrite
      cases hp : b.offset index with
      | error e => rw [hp] at hwrite; cases hwrite
      | ok place => exact Buffer.offset_ok_iff.1 ⟨place, hp⟩
  · intro h
    cases hb : m.buffer? array with
    | none => rw [load?_eq_none hb] at h; cases h
    | some b =>
      obtain ⟨place, hplace⟩ := Buffer.offset_ok_iff.2 ((load?_isSome_iff hb).1 h)
      have hwrite : b.write index v = .ok { b with stored := b.stored.insert place v } := by
        rw [Buffer.write, hplace]
        rfl
      obtain ⟨buffers, hbuffers⟩ := @modify_ok _ _ (fun b => b.write index v) _ _ _ hb hwrite
      exact ⟨⟨buffers⟩, by rw [store, hbuffers]; rfl⟩

end Memory

end ArrayPlan
