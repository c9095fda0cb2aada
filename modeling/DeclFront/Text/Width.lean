/-! Sizes of texts in bytes of their encoded form, and cuts at byte offsets. A cut inside a character
gives nothing. -/

namespace DeclFront

/-- The number of bytes a run of characters takes up in UTF-8. -/
def width : List Char → Nat
  | [] => 0
  | c :: cs => c.utf8Size + width cs

@[simp] theorem width_nil : width [] = 0 := rfl

@[simp] theorem width_cons (c : Char) (cs : List Char) :
    width (c :: cs) = c.utf8Size + width cs := rfl

@[simp] theorem width_append (xs ys : List Char) : width (xs ++ ys) = width xs + width ys := by
  induction xs with
  | nil => simp
  | cons c cs ih => simp [ih, Nat.add_assoc]

theorem width_pos {cs : List Char} (h : cs ≠ []) : 0 < width cs := by
  cases cs with
  | nil => exact absurd rfl h
  | cons c cs => have := c.utf8Size_pos; simp only [width_cons]; omega

/-- What stands behind so many bytes. -/
def dropBytes? : Nat → List Char → Option (List Char)
  | 0, cs => some cs
  | _ + 1, [] => none
  | n + 1, c :: cs => if c.utf8Size ≤ n + 1 then dropBytes? (n + 1 - c.utf8Size) cs else none

/-- The first so many bytes. -/
def takeBytes? : Nat → List Char → Option (List Char)
  | 0, _ => some []
  | _ + 1, [] => none
  | n + 1, c :: cs =>
    if c.utf8Size ≤ n + 1 then (takeBytes? (n + 1 - c.utf8Size) cs).map (c :: ·) else none

/-- What stands from one offset up to another. -/
def slice? (start stop : Nat) (cs : List Char) : Option (List Char) :=
  if start ≤ stop then (dropBytes? start cs).bind (takeBytes? (stop - start)) else none

theorem dropBytes?_append (xs ys : List Char) : dropBytes? (width xs) (xs ++ ys) = some ys := by
  induction xs with
  | nil => rw [width_nil, List.nil_append, dropBytes?]
  | cons c xs ih =>
    have hpos := c.utf8Size_pos
    obtain ⟨n, hn⟩ : ∃ n, c.utf8Size + width xs = n + 1 := ⟨c.utf8Size + width xs - 1, by omega⟩
    rw [width_cons, hn, List.cons_append, dropBytes?, if_pos (by omega), ← hn,
      Nat.add_sub_cancel_left, ih]

theorem takeBytes?_append (xs ys : List Char) : takeBytes? (width xs) (xs ++ ys) = some xs := by
  induction xs with
  | nil => rw [width_nil, takeBytes?]
  | cons c xs ih =>
    have hpos := c.utf8Size_pos
    obtain ⟨n, hn⟩ : ∃ n, c.utf8Size + width xs = n + 1 := ⟨c.utf8Size + width xs - 1, by omega⟩
    rw [width_cons, hn, List.cons_append, takeBytes?, if_pos (by omega), ← hn,
      Nat.add_sub_cancel_left, ih, Option.map_some]

theorem slice?_append (xs ys zs : List Char) :
    slice? (width xs) (width xs + width ys) (xs ++ (ys ++ zs)) = some ys := by
  rw [slice?, if_pos (Nat.le_add_right _ _), dropBytes?_append, Option.bind_some,
    Nat.add_sub_cancel_left, takeBytes?_append]

end DeclFront
