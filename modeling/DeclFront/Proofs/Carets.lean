import DeclFront.Proofs.Positions
import DeclFront.Proofs.Tiling
import DeclFront.Report

/-! The carets below a line that a report shows. Their place and number are counted in bytes, and the
line above them is read in characters. So they stand below the span exactly if all characters up to
its end take one byte each, and the span does not start behind what is shown of its line. -/

namespace DeclFront

variable {cs before line after shown : List Char} {source : String} {d : Diagnostic}

/-! ### Characters and bytes -/

/-- The characters of a run at an offset that start from `lo` up to `hi`. -/
def startingIn (lo hi : Nat) : Nat → List Char → List Char
  | _, [] => []
  | o, c :: cs =>
    if lo ≤ o ∧ o < hi then c :: startingIn lo hi (o + c.utf8Size) cs
    else startingIn lo hi (o + c.utf8Size) cs

theorem startingIn_append (lo hi o : Nat) (xs ys : List Char) :
    startingIn lo hi o (xs ++ ys) =
      startingIn lo hi o xs ++ startingIn lo hi (o + width xs) ys := by
  induction xs generalizing o with
  | nil => simp [startingIn]
  | cons c xs ih =>
    simp only [List.cons_append, startingIn, ih, width_cons, Nat.add_assoc]
    split <;> rfl

theorem startingIn_all {lo hi o : Nat} (hlo : lo ≤ o) (hhi : o + width cs ≤ hi) :
    startingIn lo hi o cs = cs := by
  induction cs generalizing o with
  | nil => rfl
  | cons c cs ih =>
    have hpos := c.utf8Size_pos
    simp only [width_cons] at hhi
    rw [startingIn, if_pos ⟨hlo, by omega⟩, ih (by omega) (by omega)]

theorem startingIn_none {lo hi o : Nat} (h : o + width cs ≤ lo ∨ hi ≤ o ∨ hi ≤ lo) :
    startingIn lo hi o cs = [] := by
  induction cs generalizing o with
  | nil => rfl
  | cons c cs ih =>
    have hpos := c.utf8Size_pos
    simp only [width_cons] at h
    rw [startingIn, if_neg (by omega), ih (by omega)]

theorem length_le_width (cs : List Char) : cs.length ≤ width cs := by
  induction cs with
  | nil => simp
  | cons c cs ih =>
    have hpos := c.utf8Size_pos
    simp only [List.length_cons, width_cons]
    omega

theorem width_eq_length_iff : width cs = cs.length ↔ ∀ c ∈ cs, c.utf8Size = 1 := by
  induction cs with
  | nil => simp
  | cons c cs ih =>
    have hpos := c.utf8Size_pos
    have hle := length_le_width cs
    rw [List.forall_mem_cons, ← ih, width_cons, List.length_cons]
    omega

theorem max_width_eq_iff : max 1 (width cs) = max 1 cs.length ↔ width cs = cs.length := by
  have hle := length_le_width cs
  by_cases hnil : cs = []
  · simp [hnil]
  · have hpos := width_pos hnil
    have hlen := List.length_pos_iff.mpr hnil
    omega

theorem startingIn_split {lo hi : Nat} (h : lo ≤ hi) (o : Nat) (cs : List Char) :
    startingIn 0 hi o cs = startingIn 0 lo o cs ++ startingIn lo hi o cs := by
  induction cs generalizing o with
  | nil => rfl
  | cons c cs ih =>
    by_cases hlo : o < lo
    · rw [startingIn, startingIn, startingIn, if_pos (by omega), if_pos (by omega),
        if_neg (by omega), ih, List.cons_append]
    · have hnone (cs : List Char) {o' : Nat} (ho : o ≤ o') : startingIn 0 lo o' cs = [] :=
        startingIn_none (.inr (.inl (by omega)))
      have hrest := ih (o + c.utf8Size)
      rw [hnone cs (by omega), List.nil_append] at hrest
      rw [hnone (c :: cs) (by omega), List.nil_append, startingIn, startingIn, hrest]
      by_cases hhi : o < hi
      · rw [if_pos (by omega), if_pos (by omega)]
      · rw [if_neg (by omega), if_neg (by omega)]

/-! ### Cuts between characters -/

/-- Of two cuts of one text, the one with fewer bytes in front comes first. -/
theorem exists_between {us vs xs ys : List Char} (h : us ++ vs = xs ++ ys)
    (hle : width us ≤ width xs) : ∃ ms, xs = us ++ ms ∧ vs = ms ++ ys := by
  rcases List.append_eq_append_iff.mp h with ⟨ms, hxs, hvs⟩ | ⟨ms, hus, hys⟩
  · exact ⟨ms, hxs, hvs⟩
  · have hnil : ms = [] := by
      by_contra hne
      have hpos := width_pos hne
      rw [hus, width_append] at hle
      omega
    exact ⟨[], by simp [hus, hnil], by simp [hys, hnil]⟩

theorem exists_front_of_isValid {o : Nat} (h : (String.Pos.Raw.mk o).IsValid source) :
    ∃ xs ys, source.toList = xs ++ ys ∧ width xs = o := by
  obtain ⟨front, back, rfl, ho⟩ := String.Pos.Raw.isValid_iff_exists_append.mp h
  refine ⟨front.toList, back.toList, by simp, ?_⟩
  rw [← utf8ByteSize_eq_width]
  exact (congrArg String.Pos.Raw.byteIdx ho).symm

/-- In front of a cut between characters there are whole characters of a run, up to its end. -/
theorem width_startingIn {tail : List Char} {o : Nat}
    (hs : source.toList = before ++ (shown ++ tail)) (ho : (String.Pos.Raw.mk o).IsValid source)
    (hle : width before ≤ o) :
    width (startingIn 0 o (width before) shown) =
      min o (width before + width shown) - width before := by
  by_cases hend : width before + width shown ≤ o
  · rw [startingIn_all (Nat.zero_le _) hend]
    omega
  · obtain ⟨xs, ys, hxs, hwidth⟩ := exists_front_of_isValid ho
    obtain ⟨lead, rfl, hlead⟩ := exists_between (hs.symm.trans hxs) (by omega)
    rw [width_append] at hwidth
    obtain ⟨rest, rfl, -⟩ := exists_between hlead.symm (by omega)
    rw [startingIn_append, startingIn_all (Nat.zero_le _) (by omega),
      startingIn_none (.inr (.inl (by omega))), List.append_nil]
    omega

/-! ### Rows of a report

A report is what stands above the line that it shows, that line and the carets below it, each behind
a margin, and then the notes and hints. -/

def margin (label : String) : String := "  " ++ label ++ " | "

namespace Diagnostic

def lineNumber (source : String) (d : Diagnostic) : Nat := (lineInfo source d.span.start).line

def column (source : String) (d : Diagnostic) : Nat := (lineInfo source d.span.start).column

def shownLine (source : String) (d : Diagnostic) : List Char := (lineInfo source d.span.start).text

/-- Where the line that is shown starts in the text. -/
def lineStart (source : String) (d : Diagnostic) : Nat := d.span.start - (d.column source - 1)

def caretRow (source : String) (d : Diagnostic) : String :=
  spaces (d.column source - 1) ++ underline d.span (d.column source) (d.shownLine source)

def above (file source : String) (d : Diagnostic) : String :=
  d.cause.title ++ ": " ++ d.message ++ "\n" ++
    "  --> " ++ file ++ ":" ++ toString (d.lineNumber source) ++ ":" ++ toString (d.column source) ++
    "\n" ++ "  " ++ spaces (toString (d.lineNumber source)).length ++ " |\n"

def below (d : Diagnostic) : String :=
  String.join (d.notes.map (fun n => "  = note: " ++ n ++ "\n")) ++
    String.join (d.hints.map (fun h => "  = hint: " ++ h ++ "\n"))

theorem render_rows (file source : String) (d : Diagnostic) :
    let number := toString (d.lineNumber source)
    d.render file source = d.above file source ++
      (margin number ++ String.ofList (d.shownLine source) ++ "\n") ++
      (margin (spaces number.length) ++ d.caretRow source ++ "\n") ++ d.below := by
  unfold render above caretRow shownLine lineNumber column
  simp only [below, margin, String.append_assoc]

theorem length_margin (label : String) :
    (margin (spaces label.length)).length = (margin label).length := by
  simp [margin, spaces]

/-- The carets stand below the characters of the span: as many characters are in front of the first
caret as of the line are in front of the span, and there are as many carets as the line has characters
of the span, or one if it has none. -/
def Points (source : String) (d : Diagnostic) : Prop :=
  let row := (d.caretRow source).toList
  let line := d.shownLine source
  (row.takeWhile (· != '^')).length =
      (startingIn 0 d.span.start (d.lineStart source) line).length ∧
    row.count '^' =
      max 1 (startingIn d.span.start d.span.stop (d.lineStart source) line).length

instance (source : String) (d : Diagnostic) : Decidable (d.Points source) :=
  inferInstanceAs (Decidable (_ ∧ _))

theorem toList_caretRow (source : String) (d : Diagnostic) :
    (d.caretRow source).toList = List.replicate (d.column source - 1) ' ' ++ List.replicate
      (max (min d.span.length (width (d.shownLine source) - (d.column source - 1))) 1) '^' := by
  simp [caretRow, spaces, underline]

theorem lead_caretRow (source : String) (d : Diagnostic) :
    ((d.caretRow source).toList.takeWhile (· != '^')).length = d.column source - 1 := by
  rw [toList_caretRow, List.takeWhile_append_of_pos (by simp)]
  simp

theorem count_caretRow (source : String) (d : Diagnostic) :
    (d.caretRow source).toList.count '^' =
      max 1 (min d.span.length (width (d.shownLine source) - (d.column source - 1))) := by
  rw [toList_caretRow, List.count_append, List.count_replicate_self, Nat.max_comm]
  simp [List.count_replicate]

theorem column_eq (h : LineCut source.toList d.span.start before line after) :
    d.column source - 1 = d.span.start - width before := by
  rw [column, h.lineInfo_eq, Nat.add_sub_cancel]

theorem lineStart_eq (h : LineCut source.toList d.span.start before line after) :
    d.lineStart source = width before := by
  have hle := h.start_le
  rw [lineStart, column_eq h]
  omega

/-- The characters of the span that are shown take as many bytes as there are carets for them. -/
theorem width_span {tail : List Char} (hs : source.toList = before ++ (shown ++ tail))
    (hstart : (String.Pos.Raw.mk d.span.start).IsValid source)
    (hstop : (String.Pos.Raw.mk d.span.stop).IsValid source) (hle : width before ≤ d.span.start)
    (hend : d.span.start ≤ width before + width shown) :
    width (startingIn d.span.start d.span.stop (width before) shown) =
      min d.span.length (width shown - (d.span.start - width before)) := by
  by_cases horder : d.span.start ≤ d.span.stop
  · have hfront := width_startingIn hs hstart hle
    have hall := width_startingIn hs hstop (hle.trans horder)
    rw [startingIn_split horder, width_append] at hall
    simp only [Span.length]
    omega
  · rw [startingIn_none (.inr (.inr (by omega)))]
    simp only [Span.length, width_nil]
    omega

theorem mem_startingIn_max {start : Nat} {p : Char → Prop} :
    (∀ c ∈ startingIn 0 (max d.span.start d.span.stop) start shown, p c) ↔
      (∀ c ∈ startingIn 0 d.span.start start shown, p c) ∧
        ∀ c ∈ startingIn d.span.start d.span.stop start shown, p c := by
  by_cases horder : d.span.start ≤ d.span.stop
  · rw [Nat.max_eq_right horder, startingIn_split horder, List.forall_mem_append]
  · have hnone : startingIn d.span.start d.span.stop start shown = [] :=
      startingIn_none (.inr (.inr (by omega)))
    rw [Nat.max_eq_left (by omega), hnone]
    simp

theorem points_iff {tail : List Char} (h : LineCut source.toList d.span.start before line after)
    (hs : source.toList = before ++ (d.shownLine source ++ tail))
    (hstart : (String.Pos.Raw.mk d.span.start).IsValid source)
    (hstop : (String.Pos.Raw.mk d.span.stop).IsValid source) :
    d.Points source ↔
      d.span.start ≤ d.lineStart source + width (d.shownLine source) ∧
        ∀ c ∈ startingIn 0 (max d.span.start d.span.stop) (d.lineStart source) (d.shownLine source),
          c.utf8Size = 1 := by
  have hle := h.start_le
  have hlead := width_startingIn hs hstart hle
  have hlength := length_le_width (startingIn 0 d.span.start (width before) (d.shownLine source))
  rw [Points, lead_caretRow, count_caretRow, column_eq h, lineStart_eq h, mem_startingIn_max,
    ← width_eq_length_iff, ← width_eq_length_iff]
  by_cases hend : d.span.start ≤ width before + width (d.shownLine source)
  · have hfront : width (startingIn 0 d.span.start (width before) (d.shownLine source)) =
        d.span.start - width before := by omega
    rw [← width_span hs hstart hstop hle hend, max_width_eq_iff, hfront]
    simp only [hend, true_and]
  · -- The blanks go on behind the end of what is shown.
    constructor
    · rintro ⟨hpad, -⟩
      omega
    · exact fun hpoints => absurd hpoints.1 hend

end Diagnostic

/-- A report shows the line in which its span starts, and below it, behind a margin of the same
length, a blank for each byte of the line in front of the span and a caret for each byte of the span
in what is shown, at least one. So the carets stand below the span exactly if it does not start behind
what is shown of the line and no character up to its end takes more than one byte. -/
theorem carets_count_bytes (file : String)
    (hstart : (String.Pos.Raw.mk d.span.start).IsValid source)
    (hstop : (String.Pos.Raw.mk d.span.stop).IsValid source) :
    let number := toString (d.lineNumber source)
    let shown := d.shownLine source
    let row := (d.caretRow source).toList
    (∃ before line after, LineCut source.toList d.span.start before line after ∧
      width before = d.lineStart source ∧ Trimmed line shown) ∧
    d.render file source = d.above file source ++ (margin number ++ String.ofList shown ++ "\n") ++
      (margin (spaces number.length) ++ d.caretRow source ++ "\n") ++ d.below ∧
    (margin (spaces number.length)).length = (margin number).length ∧
    (row.takeWhile (· != '^')).length = d.span.start - d.lineStart source ∧
    row.count '^' =
      max 1 (min d.span.length (width shown - (d.span.start - d.lineStart source))) ∧
    (d.Points source ↔ d.span.start ≤ d.lineStart source + width shown ∧
      ∀ c ∈ startingIn 0 (max d.span.start d.span.stop) (d.lineStart source) shown,
        c.utf8Size = 1) := by
  intro number shown row
  obtain ⟨xs, ys, hxs, hwidth⟩ := exists_front_of_isValid hstart
  obtain ⟨before, line, after, h⟩ : ∃ before line after,
      LineCut source.toList d.span.start before line after := by
    apply exists_lineCut
    rw [hxs, width_append]
    omega
  have hrow : d.column source - 1 = d.span.start - d.lineStart source := by
    rw [Diagnostic.lineStart_eq h, Diagnostic.column_eq h]
  have hshown : shown = trimReturns line := congrArg LineInfo.text h.lineInfo_eq
  have htrimmed : Trimmed line shown := hshown ▸ trimmed_trimReturns line
  obtain ⟨n, hline⟩ := htrimmed.returns
  have hs : source.toList = before ++ (shown ++ (List.replicate n '\r' ++ after)) := by
    rw [h.whole, hline, List.append_assoc]
  refine ⟨⟨before, line, after, h, (Diagnostic.lineStart_eq h).symm, htrimmed⟩,
    d.render_rows file source, Diagnostic.length_margin number, ?_, ?_,
    Diagnostic.points_iff h hs hstart hstop⟩
  · rw [← hrow]
    exact d.lead_caretRow source
  · rw [← hrow]
    exact d.count_caretRow source

/-- A word below another in a text with carriage returns. -/
theorem carets_count_bytes_second_line :
    let source := "int x;\r\nfoo y;\r\n"
    let d := Diagnostic.illegalToken ⟨.ident, "foo", ⟨8, 11⟩⟩ "primitive type"
    (String.Pos.Raw.mk d.span.start).IsValid source ∧
      (String.Pos.Raw.mk d.span.stop).IsValid source ∧ d.Points source ∧
      (d.caretRow source).toList.count '^' = 3 := by
  intro source d
  have hstart : (String.Pos.Raw.mk d.span.start).IsValid source := by decide
  have hstop : (String.Pos.Raw.mk d.span.stop).IsValid source := by decide
  obtain ⟨-, -, -, -, hcount, hpoints⟩ := carets_count_bytes "demo.kst" hstart hstop
  have hplace : d.lineStart source = 8 ∧ d.shownLine source = "foo y;".toList := by decide +kernel
  have hfront : startingIn 0 (max d.span.start d.span.stop) 8 "foo y;".toList = ['f', 'o', 'o'] := by
    decide +kernel
  have hplain : ∀ c ∈ ['f', 'o', 'o'], c.utf8Size = 1 := by simp [Char.utf8Size]
  rw [hplace.1, hplace.2] at hcount hpoints
  rw [hfront] at hpoints
  exact ⟨hstart, hstop, hpoints.mpr ⟨by decide +kernel, hplain⟩, hcount.trans (by decide +kernel)⟩

/-- Behind a letter of two bytes the caret is one place too far to the right. -/
theorem caret_behind_wide_letter :
    let source := "import a /*é*/ b;"
    let d := Diagnostic.illegalToken ⟨.ident, "b", ⟨16, 17⟩⟩ "';'"
    (String.Pos.Raw.mk d.span.start).IsValid source ∧
      (String.Pos.Raw.mk d.span.stop).IsValid source ∧ ¬ d.Points source ∧
      d.render "a" source = "syntax error: Expected ';', found identifier 'b'\n  --> a:1:17\n" ++
        "    |\n  1 | import a /*é*/ b;\n    |                 ^\n" := by
  decide +kernel

end DeclFront
