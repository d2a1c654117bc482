/-! Positions in a text, counted in bytes of its UTF-8 form. A text is cut only between two of its
    characters: `dropBytes?` finds such a cut, or says that there is none at the position. Its main
    lemma says that the cuts are exactly the ways to write the text as two parts. -/

namespace Reckoner.Text

/-! ### Length -/

/-- The number of bytes that `t` takes in UTF-8. -/
def byteLength : List Char → Nat
  | [] => 0
  | c :: t => c.utf8Size + byteLength t

@[simp] theorem byteLength_nil : byteLength [] = 0 := rfl

@[simp] theorem byteLength_cons (c : Char) (t : List Char) :
    byteLength (c :: t) = c.utf8Size + byteLength t := rfl

@[simp] theorem byteLength_append (t u : List Char) :
    byteLength (t ++ u) = byteLength t + byteLength u := by
  induction t with
  | nil => simp
  | cons c t ih => rw [List.cons_append, byteLength_cons, byteLength_cons, ih, Nat.add_assoc]

theorem length_le_byteLength (t : List Char) : t.length ≤ byteLength t := by
  induction t with
  | nil => simp
  | cons c t ih =>
    have := c.utf8Size_pos
    simp only [List.length_cons, byteLength_cons]
    omega

/-- The length of a string counts the bytes of its characters. -/
theorem byteLength_toList (s : String) : byteLength s.toList = s.utf8ByteSize := by
  have ofList : ∀ t : List Char, (String.ofList t).utf8ByteSize = byteLength t := by
    intro t
    induction t with
    | nil => rfl
    | cons c t ih =>
      rw [String.ofList_cons, String.utf8ByteSize_append, String.utf8ByteSize_singleton, ih, byteLength_cons]
  rw [← ofList, String.ofList_toList]

/-! ### Cuts -/

/-- What follows the first `n` bytes of `t`; `none` when that position lies inside a character or
    past the end. -/
def dropBytes? : List Char → Nat → Option (List Char)
  | t, 0 => some t
  | [], _ + 1 => none
  | c :: t, n + 1 => if c.utf8Size ≤ n + 1 then dropBytes? t (n + 1 - c.utf8Size) else none

@[simp] theorem dropBytes?_zero (t : List Char) : dropBytes? t 0 = some t := by
  cases t <;> rfl

theorem dropBytes?_cons_add (c : Char) (t : List Char) (n : Nat) :
    dropBytes? (c :: t) (c.utf8Size + n) = dropBytes? t n := by
  obtain ⟨k, hk⟩ : ∃ k, c.utf8Size + n = k + 1 := ⟨c.utf8Size + n - 1, by have := c.utf8Size_pos; omega⟩
  have hle : c.utf8Size ≤ k + 1 := by omega
  have hsub : k + 1 - c.utf8Size = n := by omega
  rw [hk, dropBytes?, if_pos hle, hsub]

/-- Behind `t`, the cuts of `u` are where they are in `u`, moved by the length of `t`. -/
theorem dropBytes?_append_add (t u : List Char) (n : Nat) :
    dropBytes? (t ++ u) (byteLength t + n) = dropBytes? u n := by
  induction t with
  | nil => simp
  | cons c t ih => rw [List.cons_append, byteLength_cons, Nat.add_assoc, dropBytes?_cons_add, ih]

theorem dropBytes?_append (t u : List Char) : dropBytes? (t ++ u) (byteLength t) = some u := by
  simpa using dropBytes?_append_add t u 0

theorem eq_append_of_dropBytes? {t r : List Char} {n : Nat} (h : dropBytes? t n = some r) :
    ∃ u, t = u ++ r ∧ byteLength u = n := by
  fun_induction dropBytes? t n with
  | case1 t => exact ⟨[], by simpa using h, rfl⟩
  | case2 => simp at h
  | case3 c t n hle ih =>
    obtain ⟨u, rfl, hu⟩ := ih h
    exact ⟨c :: u, rfl, by simp only [byteLength_cons]; omega⟩
  | case4 => simp at h

/-- The cuts of a text are the ways to write it as two parts. -/
theorem dropBytes?_eq_some_iff {t r : List Char} {n : Nat} :
    dropBytes? t n = some r ↔ ∃ u, t = u ++ r ∧ byteLength u = n := by
  refine ⟨eq_append_of_dropBytes?, ?_⟩
  rintro ⟨u, rfl, rfl⟩
  exact dropBytes?_append u r

/-- A cut stays one when the text goes on. -/
theorem dropBytes?_append_of_eq_some {t r : List Char} {n : Nat} (h : dropBytes? t n = some r) (u : List Char) :
    dropBytes? (t ++ u) n = some (r ++ u) := by
  obtain ⟨v, rfl, rfl⟩ := eq_append_of_dropBytes? h
  rw [List.append_assoc, dropBytes?_append]

end Reckoner.Text
