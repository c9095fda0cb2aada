import DeclFront.Text.Width

/-! A text cut in two at the point a reader has reached. Every move keeps the text as a whole
and only ever adds to the part that was taken. -/

namespace DeclFront

structure Split where
  taken : List Char
  rest : List Char
deriving DecidableEq, Repr

namespace Split

def whole (s : Split) : List Char := s.taken ++ s.rest

/-- The next character satisfies the test. -/
def sees (p : Char → Bool) (s : Split) : Bool := s.rest.head?.any p

/-- Takes the next character. -/
def step (s : Split) : Split :=
  match s.rest with
  | [] => s
  | c :: rest => ⟨s.taken ++ [c], rest⟩

/-- Takes the next character if it satisfies the test. -/
def stepIf (p : Char → Bool) (s : Split) : Split := if s.sees p then s.step else s

/-- Takes the longest run of characters that satisfy the test. -/
def run (p : Char → Bool) (s : Split) : Split :=
  ⟨s.taken ++ s.rest.takeWhile p, s.rest.dropWhile p⟩

/-- One split is further along the same text than another. -/
def Ahead (s t : Split) : Prop := ∃ more, t.taken = s.taken ++ more ∧ s.rest = more ++ t.rest

theorem Ahead.refl (s : Split) : s.Ahead s := ⟨[], by simp⟩

theorem Ahead.trans {s t u : Split} (h : s.Ahead t) (h' : t.Ahead u) : s.Ahead u := by
  obtain ⟨xs, ht, hs⟩ := h
  obtain ⟨ys, hu, ht'⟩ := h'
  exact ⟨xs ++ ys, by simp [hu, ht], by simp [hs, ht']⟩

theorem Ahead.whole_eq {s t : Split} (h : s.Ahead t) : t.whole = s.whole := by
  obtain ⟨xs, ht, hs⟩ := h
  simp [whole, ht, hs]

theorem Ahead.rest_le {s t : Split} (h : s.Ahead t) : t.rest.length ≤ s.rest.length := by
  obtain ⟨xs, _, hs⟩ := h
  simp [hs]

theorem ahead_step (s : Split) : s.Ahead s.step := by
  unfold step
  split
  · exact .refl s
  · next c rest h => exact ⟨[c], rfl, by simp [h]⟩

theorem ahead_stepIf (p : Char → Bool) (s : Split) : s.Ahead (s.stepIf p) := by
  unfold stepIf
  split
  · exact s.ahead_step
  · exact .refl s

theorem ahead_run (p : Char → Bool) (s : Split) : s.Ahead (s.run p) :=
  ⟨s.rest.takeWhile p, rfl, List.takeWhile_append_dropWhile.symm⟩

end Split

end DeclFront
