import ServiceSplit.Text.Basic

/-!
# Cutting texts at byte positions

A byte position at which a text can be cut is one where a character ends. What stands between two
such positions is found again by `Text.slice`.
-/

namespace ServiceSplit.Text

variable {cs front back more : List Char} {m n : Nat}

theorem foldl_utf8Size (n : Nat) (cs : List Char) :
    cs.foldl (fun n c => n + c.utf8Size) n = n + byteSize cs := by
  induction cs generalizing n with
  | nil => rfl
  | cons c cs ih =>
    rw [byteSize, List.foldl_cons, List.foldl_cons, ih, ih, Nat.zero_add, Nat.add_assoc]

@[simp]
theorem byteSize_nil : byteSize [] = 0 :=
  rfl

@[simp]
theorem byteSize_cons (c : Char) (cs : List Char) :
    byteSize (c :: cs) = c.utf8Size + byteSize cs := by
  rw [byteSize, List.foldl_cons, foldl_utf8Size, Nat.zero_add]

@[simp]
theorem byteSize_append (front back : List Char) :
    byteSize (front ++ back) = byteSize front + byteSize back := by
  rw [byteSize, List.foldl_append, foldl_utf8Size]
  rfl

theorem eq_nil_of_byteSize_eq_zero (h : byteSize cs = 0) : cs = [] := by
  cases cs with
  | nil => rfl
  | cons c cs =>
    have hc := c.utf8Size_pos
    rw [byteSize_cons] at h
    omega

theorem charCount_byteSize (front back : List Char) (count : Nat) :
    charCount (byteSize front) (front ++ back) count = count + front.length := by
  induction front generalizing count with
  | nil => simp [charCount]
  | cons c front ih =>
    have hc := c.utf8Size_pos
    obtain ⟨k, hk⟩ : ∃ k, byteSize (c :: front) = k + 1 :=
      ⟨byteSize (c :: front) - 1, by rw [byteSize_cons]; omega⟩
    have hrest : k + 1 - c.utf8Size = byteSize front := by
      rw [← hk, byteSize_cons]
      omega
    rw [hk, List.cons_append, charCount, hrest, ih, List.length_cons]
    · omega
    · exact Nat.succ_ne_zero k

theorem dropBytes_byteSize (front back : List Char) :
    dropBytes (byteSize front) (front ++ back) = back := by
  rw [dropBytes, charCount_byteSize, Nat.zero_add, List.drop_left]

theorem takeBytes_byteSize (front back : List Char) :
    takeBytes (byteSize front) (front ++ back) = front := by
  rw [takeBytes, charCount_byteSize, Nat.zero_add, List.take_left]

/-- A byte position between two characters of a text, or at one of its ends. -/
def IsBoundary (cs : List Char) (n : Nat) : Prop :=
  ∃ front back, cs = front ++ back ∧ byteSize front = n

theorem isBoundary_zero (cs : List Char) : IsBoundary cs 0 :=
  ⟨[], cs, rfl, rfl⟩

/-- The text `part` stands between the byte positions `m` and `n`. -/
def Between (cs : List Char) (m n : Nat) (part : List Char) : Prop :=
  ∃ front back, cs = front ++ part ++ back ∧ byteSize front = m ∧ m + byteSize part = n

namespace Between

variable {part : List Char}

theorem slice_eq (h : Between cs m n part) : slice cs m n = part := by
  obtain ⟨front, back, rfl, rfl, rfl⟩ := h
  rw [slice, Nat.add_sub_cancel_left, List.append_assoc, dropBytes_byteSize, takeBytes_byteSize]

theorem start (h : Between cs m n part) : IsBoundary cs m := by
  obtain ⟨front, back, rfl, rfl, -⟩ := h
  exact ⟨front, part ++ back, List.append_assoc _ _ _, rfl⟩

theorem stop (h : Between cs m n part) : IsBoundary cs n := by
  obtain ⟨front, back, rfl, rfl, rfl⟩ := h
  exact ⟨front ++ part, back, rfl, byteSize_append _ _⟩

theorem le (h : Between cs m n part) : m ≤ n := by
  obtain ⟨-, -, -, -, rfl⟩ := h
  exact Nat.le_add_right _ _

theorem stop_le (h : Between cs m n part) : n ≤ byteSize cs := by
  obtain ⟨front, back, rfl, rfl, rfl⟩ := h
  rw [byteSize_append, byteSize_append]
  exact Nat.le_add_right _ _

/-- What stands in a text stands there when more text follows. -/
theorem append (h : Between cs m n part) (more : List Char) : Between (cs ++ more) m n part := by
  obtain ⟨front, back, rfl, hm, hn⟩ := h
  exact ⟨front, back ++ more, List.append_assoc _ _ _, hm, hn⟩

/-- What stands at the end of a text is continued by what follows the text. -/
theorem extend (h : Between cs m (byteSize cs) part) (more : List Char) :
    Between (cs ++ more) m (byteSize (cs ++ more)) (part ++ more) := by
  obtain ⟨front, back, rfl, rfl, hn⟩ := h
  have hback : back = [] := by
    refine eq_nil_of_byteSize_eq_zero ?_
    rw [byteSize_append, byteSize_append] at hn
    omega
  subst hback
  refine ⟨front, [], by simp, rfl, ?_⟩
  simp only [byteSize_append, byteSize_nil]
  omega

end Between

theorem between_end (cs : List Char) : Between cs (byteSize cs) (byteSize cs) [] :=
  ⟨cs, [], by simp, rfl, rfl⟩

end ServiceSplit.Text
