import DeclFront.Text.Blank
import DeclFront.Text.Width

/-! What stands between tokens: blanks, comments to the end of the line, block comments. -/

namespace DeclFront

/-- The body of a block comment with its closing mark, and what follows it. -/
def blockBody? : List Char → Option (List Char × List Char)
  | '*' :: '/' :: rest => some (['*', '/'], rest)
  | c :: rest => (blockBody? rest).map (fun r => (c :: r.1, r.2))
  | [] => none

theorem blockBody?_append {cs body rest : List Char} (h : blockBody? cs = some (body, rest)) :
    body ++ rest = cs := by
  fun_induction blockBody? cs generalizing body rest with
  | case1 r =>
    cases h
    rfl
  | case2 c r _ ih =>
    obtain ⟨⟨b, t⟩, hb, he⟩ := Option.map_eq_some_iff.1 h
    cases he
    simp [ih hb]
  | case3 => simp at h

structure Lead where
  skipped : List Char
  rest : List Char
  /-- The rest is a block comment that is never closed. -/
  isOpen : Bool

def Lead.after (cs : List Char) (l : Lead) : Lead := { l with skipped := cs ++ l.skipped }

/-- Skips as much trivia as there is. -/
def lead (cs : List Char) : Lead :=
  match cs with
  | '/' :: '/' :: rest =>
    (lead (rest.dropWhile (· != '\n'))).after ('/' :: '/' :: rest.takeWhile (· != '\n'))
  | '/' :: '*' :: rest =>
    match _h : blockBody? rest with
    | some (body, rest') => (lead rest').after ('/' :: '*' :: body)
    | none => ⟨[], '/' :: '*' :: rest, true⟩
  | c :: rest => if isBlank c then (lead rest).after [c] else ⟨[], c :: rest, false⟩
  | [] => ⟨[], [], false⟩
termination_by cs.length
decreasing_by
  · have := (List.dropWhile_sublist (l := rest) (· != '\n')).length_le
    simp only [List.length_cons]
    omega
  · have := congrArg List.length (blockBody?_append _h)
    simp only [List.length_append] at this
    simp only [List.length_cons]
    omega
  · simp

theorem lead_append (cs : List Char) : (lead cs).skipped ++ (lead cs).rest = cs := by
  fun_induction lead cs with
  | case1 rest ih => simp_all [Lead.after]
  | case2 rest body rest' h ih => simp [Lead.after, ih, blockBody?_append h]
  | case3 rest h => simp
  | case4 c rest _ _ hc ih => simp [Lead.after, ih]
  | case5 c rest _ _ hc => simp
  | case6 => simp

end DeclFront
