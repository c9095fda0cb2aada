import Mathlib.Data.Prod.Lex
import Mathlib.Data.Set.Function
import Mathlib.Order.Interval.Set.Defs
import DeclFront.Source.Lines

/-! Lines and columns against plain counting. A text is cut at the newlines around an offset, and
this one cut says which start the search comes to, how many newline bytes stand in front of the
offset, and which line is shown for it. -/

namespace DeclFront

variable {cs before line after : List Char} {s : String} {o : Nat}

/-! ### Cuts -/

/-- A text as the lines in front of the one that holds an offset, that line, and all behind it. -/
structure LineCut (cs : List Char) (o : Nat) (before line after : List Char) : Prop where
  whole : cs = before ++ (line ++ after)
  opens : before = [] ∨ before.getLast? = some '\n'
  unbroken : '\n' ∉ line
  closes : after = [] ∨ after.head? = some '\n'
  start_le : width before ≤ o
  le_stop : o ≤ width before + width line

/-- Every offset up to the end of a text is in one of its lines, also inside a character. -/
theorem exists_lineCut (h : o ≤ width cs) : ∃ before line after, LineCut cs o before line after := by
  induction cs generalizing o with
  | nil => exact ⟨[], [], [], by simp, .inl rfl, by simp, .inl rfl, by simp, by simpa using h⟩
  | cons c cs ih =>
    obtain ⟨before, line, after, hcut⟩ := ih (o := o - c.utf8Size) (by simp at h; omega)
    have hstart := hcut.start_le
    have hstop := hcut.le_stop
    by_cases hc : c = '\n'
    · subst hc
      have hsize : ('\n' : Char).utf8Size = 1 := rfl
      by_cases hz : o = 0
      · exact ⟨[], [], '\n' :: cs, by simp, .inl rfl, by simp, .inr rfl, by simp, by simp [hz]⟩
      · refine ⟨'\n' :: before, line, after, by simp [hcut.whole], .inr ?_, hcut.unbroken,
          hcut.closes, ?_, ?_⟩
        · rcases hcut.opens with rfl | hlast
          · rfl
          · simp [List.getLast?_cons, hlast]
        · simp only [width_cons]
          omega
        · simp only [width_cons]
          omega
    · rcases hcut.opens with rfl | hlast
      · refine ⟨[], c :: line, after, by simp [hcut.whole], .inl rfl, ?_, hcut.closes, by simp, ?_⟩
        · simpa [Ne.symm hc] using hcut.unbroken
        · simp only [width_nil, width_cons] at hstop ⊢
          omega
      · -- The line starts behind the character, so the offset does not stand inside it.
        have hpos : 0 < width before := width_pos (by rintro rfl; simp at hlast)
        refine ⟨c :: before, line, after, by simp [hcut.whole], .inr ?_, hcut.unbroken,
          hcut.closes, ?_, ?_⟩
        · simp [List.getLast?_cons, hlast]
        · simp only [width_cons]
          omega
        · simp only [width_cons]
          omega

namespace LineCut

variable (h : LineCut cs o before line after)
include h

theorem le_width : o ≤ width cs := by
  have hstop := h.le_stop
  rw [h.whole, width_append, width_append]
  omega

theorem opens_append : before = [] ∨ ∃ front, before = front ++ ['\n'] := by
  refine h.opens.imp_right (fun hlast => ?_)
  exact List.getLast?_eq_some_iff.mp hlast

end LineCut

/-! ### Starts of lines -/

theorem newlineStops_append (o : Nat) (xs ys : List Char) :
    newlineStops o (xs ++ ys) = newlineStops o xs ++ newlineStops (o + width xs) ys := by
  induction xs generalizing o with
  | nil => simp [newlineStops]
  | cons c xs ih =>
    simp only [List.cons_append, newlineStops, ih, width_cons, Nat.add_assoc]
    split <;> rfl

theorem newlineStops_of_notMem (o : Nat) (h : '\n' ∉ cs) : newlineStops o cs = [] := by
  induction cs generalizing o with
  | nil => rfl
  | cons c cs ih =>
    rw [List.mem_cons, not_or] at h
    simp [newlineStops, Ne.symm h.1, ih _ h.2]

theorem length_newlineStops (o : Nat) (cs : List Char) :
    (newlineStops o cs).length = cs.count '\n' := by
  induction cs generalizing o with
  | nil => rfl
  | cons c cs ih =>
    by_cases hc : c = '\n' <;> simp [newlineStops, hc, ih]

theorem newlineStops_bounds {p : Nat} (h : p ∈ newlineStops o cs) : o < p ∧ p ≤ o + width cs := by
  induction cs generalizing o with
  | nil => cases h
  | cons c cs ih =>
    have hpos := c.utf8Size_pos
    have hrest (hp : p ∈ newlineStops (o + c.utf8Size) cs) : o < p ∧ p ≤ o + width (c :: cs) := by
      have := ih hp
      simp only [width_cons]
      omega
    by_cases hc : c = '\n'
    · simp only [newlineStops, hc, beq_self_eq_true, if_true, List.mem_cons] at h
      rw [← hc] at h
      rcases h with rfl | h
      · simp only [width_cons]
        omega
      · exact hrest h
    · exact hrest (by simpa [newlineStops, hc] using h)

namespace LineCut

variable (h : LineCut s.toList o before line after)
include h

theorem getElem?_starts (i : Nat) : (LineIndex.ofText s).starts[i]? =
    ((0 :: newlineStops 0 before) ++ newlineStops (width before) (line ++ after))[i]? := by
  simp [LineIndex.ofText, h.whole, newlineStops_append]

theorem own_start : (LineIndex.ofText s).starts[before.count '\n']? = some (width before) := by
  rw [h.getElem?_starts, List.getElem?_append_left (by simp [length_newlineStops])]
  rcases h.opens_append with rfl | ⟨front, rfl⟩
  · rfl
  · have hsize : ('\n' : Char).utf8Size = 1 := rfl
    have hlength := length_newlineStops 0 front
    simp [newlineStops_append, newlineStops, hlength, hsize]

theorem start_le_of_le {k start : Nat} (hk : k ≤ before.count '\n')
    (hstart : (LineIndex.ofText s).starts[k]? = some start) : start ≤ o := by
  rw [h.getElem?_starts, List.getElem?_append_left (by simp [length_newlineStops]; omega)] at hstart
  rcases List.mem_cons.mp (List.mem_of_getElem? hstart) with rfl | hmem
  · exact Nat.zero_le _
  · have hbounds := newlineStops_bounds hmem
    have hown := h.start_le
    omega

theorem lt_start_of_lt {k start : Nat} (hk : before.count '\n' < k)
    (hstart : (LineIndex.ofText s).starts[k]? = some start) : o < start := by
  -- The line of the offset has no newline, so the next start is behind its end.
  rw [h.getElem?_starts, List.getElem?_append_right (by simp [length_newlineStops]; omega),
    newlineStops_append, newlineStops_of_notMem _ h.unbroken, List.nil_append] at hstart
  have hbounds := newlineStops_bounds (List.mem_of_getElem? hstart)
  have hstop := h.le_stop
  omega

end LineCut

/-! ### The search -/

namespace LineIndex

/-- Values up to a place are not above the offset and those from there on are. The search keeps that
place between its ends, above the lower one. -/
theorem search_eq {starts : Array Nat} {n lo hi : Nat} (hbelow : ∀ i < n, starts.getD i 0 ≤ o)
    (habove : ∀ i, n ≤ i → i < hi → o < starts.getD i 0) (hlo : lo < n) (hhi : n ≤ hi) :
    search starts o lo hi = n - 1 := by
  fun_induction search starts o lo hi with
  | case1 lo hi hle => omega
  | case2 lo hi hgap mid hmid ih =>
    refine ih habove ?_ hhi
    by_contra hn
    have := habove mid (by omega) (by omega)
    omega
  | case3 lo hi hgap mid hmid ih =>
    have hn : n ≤ mid := by
      by_contra hn
      exact hmid (hbelow mid (by omega))
    exact ih (fun i hi hlt => habove i hi (by omega)) hlo hn

/-- The line of an offset is the last that does not start behind it. The place where the offset would
be put in is not the first one, so that there is a line in front of that place. -/
structure Finds (ix : LineIndex) (o start : Nat) : Prop where
  lookup_pos : ∀ next, lookup ix.starts o = .missing next → 0 < next
  start_eq : ix.starts[ix.line o]? = some start
  start_le : start ≤ o
  later : ∀ k next, ix.line o < k → ix.starts[k]? = some next → o < next

theorem lookup_eq {ix : LineIndex} {n start : Nat}
    (hsearch : search ix.starts o 0 ix.starts.size = n) (hstart : ix.starts[n]? = some start)
    (hle : start ≤ o) :
    lookup ix.starts o = if start = o then .found n else .missing (n + 1) := by
  simp only [lookup, hsearch, hstart]
  by_cases heq : start = o
  · simp [heq]
  · simp [heq, show start < o by omega]

theorem line_eq {ix : LineIndex} {n start : Nat}
    (hsearch : search ix.starts o 0 ix.starts.size = n) (hstart : ix.starts[n]? = some start)
    (hle : start ≤ o) : ix.line o = n := by
  rw [line, lookup_eq hsearch hstart hle]
  by_cases heq : start = o <;> simp [heq]

end LineIndex

namespace LineCut

variable (h : LineCut s.toList o before line after)
include h

theorem search_eq : LineIndex.search (LineIndex.ofText s).starts o 0
    (LineIndex.ofText s).starts.size = before.count '\n' := by
  obtain ⟨hsize, -⟩ := Array.getElem?_eq_some_iff.mp h.own_start
  refine LineIndex.search_eq (n := before.count '\n' + 1) ?_ ?_ (by omega) hsize
  · intro i hi
    have hget := Array.getElem?_eq_getElem (show i < (LineIndex.ofText s).starts.size by omega)
    rw [Array.getD_eq_getD_getElem?, hget]
    exact h.start_le_of_le (by omega) hget
  · intro i hi hlt
    have hget := Array.getElem?_eq_getElem hlt
    rw [Array.getD_eq_getD_getElem?, hget]
    exact h.lt_start_of_lt hi hget

theorem line_eq : (LineIndex.ofText s).line o = before.count '\n' :=
  LineIndex.line_eq h.search_eq h.own_start h.start_le

theorem finds : (LineIndex.ofText s).Finds o (width before) := by
  refine ⟨fun next hnext => ?_, by rw [h.line_eq, h.own_start], h.start_le, fun k next hk => ?_⟩
  · rw [LineIndex.lookup_eq h.search_eq h.own_start h.start_le] at hnext
    by_cases heq : width before = o <;> simp [heq] at hnext
    omega
  · rw [h.line_eq] at hk
    exact h.lt_start_of_lt hk

theorem position_eq :
    (LineIndex.ofText s).position o = (before.count '\n' + 1, o - width before + 1) := by
  have hmin : min o (LineIndex.ofText s).length = o := Nat.min_eq_left h.le_width
  simp only [LineIndex.position, hmin, h.line_eq, Array.getD_eq_getD_getElem?, h.own_start,
    Option.getD_some]

end LineCut

/-! ### Bytes -/

def textBytes (s : String) : List UInt8 := s.toUTF8.data.toList

/-- Zero or one past a newline byte, with no other newline byte from there up to the offset. -/
structure LineStart (bytes : List UInt8) (o p : Nat) : Prop where
  le : p ≤ o
  opens : p = 0 ∨ 0 < p ∧ bytes[p - 1]? = some 10
  unbroken : ∀ i, p ≤ i → i < o → bytes[i]? ≠ some 10

theorem textBytes_eq (s : String) : textBytes s = s.toList.flatMap String.utf8EncodeChar := by
  have hbytes : s.toUTF8 = s.toList.utf8Encode := by
    rw [String.toUTF8_eq_toByteArray, ← String.toByteArray_ofList, String.ofList_toList]
  rw [textBytes, hbytes, List.utf8Encode, List.toList_data_toByteArray]

theorem length_encoded (cs : List Char) :
    (cs.flatMap String.utf8EncodeChar).length = width cs := by
  induction cs with
  | nil => rfl
  | cons c cs ih => simp [ih]

/-- A character of more than one byte has no byte below 128. -/
theorem newline_mem_encoded {c : Char} : 10 ∈ String.utf8EncodeChar c ↔ c = '\n' := by
  have hnat {n : Nat} : 10 = UInt8.ofNat n ↔ n % 256 = 10 := by
    rw [← UInt8.toNat_inj, UInt8.toNat_ofNat', eq_comm]
    rfl
  constructor
  · intro h
    have hcode : c.val.toNat = 10 := by
      simp only [String.utf8EncodeChar] at h
      split at h
      · have := hnat.mp (List.mem_singleton.mp h)
        omega
      · split_ifs at h <;> simp only [List.mem_cons, List.not_mem_nil, or_false, hnat] at h <;> omega
    exact Char.ext (UInt32.toNat_inj.mp hcode)
  · rintro rfl
    decide

theorem count_encoded (cs : List Char) :
    (cs.flatMap String.utf8EncodeChar).count 10 = cs.count '\n' := by
  induction cs with
  | nil => rfl
  | cons c cs ih =>
    rw [List.flatMap_cons, List.count_append, ih]
    by_cases hc : c = '\n'
    · subst hc
      have hone : (String.utf8EncodeChar '\n').count 10 = 1 := by decide
      simp [hone, Nat.add_comm]
    · have hnone : (String.utf8EncodeChar c).count 10 = 0 :=
        List.count_eq_zero.mpr (fun hmem => hc (newline_mem_encoded.mp hmem))
      simp [hnone, hc]

theorem newline_notMem_encoded (h : '\n' ∉ cs) : 10 ∉ cs.flatMap String.utf8EncodeChar := by
  rw [← List.count_eq_zero, count_encoded]
  exact List.count_eq_zero.mpr h

theorem LineCut.take_bytes (h : LineCut s.toList o before line after) :
    (textBytes s).take o = before.flatMap String.utf8EncodeChar ++
      (line.flatMap String.utf8EncodeChar).take (o - width before) := by
  have hlength := length_encoded before
  have hline := length_encoded line
  have hstart := h.start_le
  have hstop := h.le_stop
  rw [textBytes_eq, h.whole, List.flatMap_append, List.flatMap_append, List.take_append, hlength,
    List.take_of_length_le (by omega), List.take_append_of_le_length (by omega)]

theorem LineCut.count_bytes (h : LineCut s.toList o before line after) :
    ((textBytes s).take o).count 10 = before.count '\n' := by
  have hnone : ((line.flatMap String.utf8EncodeChar).take (o - width before)).count 10 = 0 :=
    List.count_eq_zero.mpr
      (fun hmem => newline_notMem_encoded h.unbroken (List.mem_of_mem_take hmem))
  rw [h.take_bytes, List.count_append, count_encoded, hnone, Nat.add_zero]

theorem LineCut.lineStart (h : LineCut s.toList o before line after) :
    LineStart (textBytes s) o (width before) := by
  have hlength := length_encoded before
  have hget {i : Nat} (hi : i < o) : (textBytes s)[i]? = (before.flatMap String.utf8EncodeChar ++
      (line.flatMap String.utf8EncodeChar).take (o - width before))[i]? := by
    rw [← h.take_bytes, List.getElem?_take_of_lt hi]
  refine ⟨h.start_le, ?_, fun i hi hlt => ?_⟩
  · rcases h.opens_append with rfl | ⟨front, rfl⟩
    · exact .inl rfl
    · have hsize : width (front ++ ['\n']) = width front + 1 := by simp [Char.utf8Size]
      have hten : String.utf8EncodeChar '\n' = [10] := by decide
      have hstart := h.start_le
      have hfront := length_encoded front
      refine .inr ⟨by omega, ?_⟩
      rw [hget (by omega), hsize, List.getElem?_append_left (by omega), List.flatMap_append]
      simp [← hfront, hten]
  · rw [hget hlt, List.getElem?_append_right (by omega)]
    intro hten
    exact newline_notMem_encoded h.unbroken (List.mem_of_mem_take (List.mem_of_getElem? hten))

/-! ### The line that is shown -/

theorem findNewline?_of_notMem (h : '\n' ∉ cs) : findNewline? cs = none := by
  induction cs with
  | nil => rfl
  | cons c cs ih =>
    rw [List.mem_cons, not_or] at h
    simp [findNewline?, Ne.symm h.1, ih h.2]

theorem findNewline?_append (h : '\n' ∉ cs) (after : List Char) :
    findNewline? (cs ++ '\n' :: after) = some (width cs) := by
  induction cs with
  | nil => simp [findNewline?]
  | cons c cs ih =>
    rw [List.mem_cons, not_or] at h
    simp [findNewline?, Ne.symm h.1, ih h.2]

/-- From the start of a line, the next newline or the end is where the line ends. -/
theorem LineCut.stop_eq (h : LineCut cs o before line after) :
    ((findNewline? (line ++ after)).map (width before + ·)).getD (width cs) =
      width before + width line := by
  rcases h.closes with rfl | hhead
  · rw [List.append_nil, findNewline?_of_notMem h.unbroken, h.whole]
    simp
  · obtain ⟨behind, rfl⟩ := List.head?_eq_some_iff.mp hhead
    rw [findNewline?_append h.unbroken]
    rfl

/-- What is left of a line without the carriage returns at its end. -/
structure Trimmed (line shown : List Char) : Prop where
  returns : ∃ n, line = shown ++ List.replicate n '\r'
  last_ne : shown.getLast? ≠ some '\r'

theorem trimmed_trimReturns (line : List Char) : Trimmed line (trimReturns line) := by
  unfold trimReturns
  refine ⟨⟨(line.reverse.takeWhile (· == '\r')).length, ?_⟩, ?_⟩
  · have hreturns : line.reverse.takeWhile (· == '\r') =
        List.replicate (line.reverse.takeWhile (· == '\r')).length '\r' := by
      refine List.eq_replicate_iff.mpr ⟨rfl, fun c hc => ?_⟩
      simpa using List.all_eq_true.mp List.all_takeWhile c hc
    apply List.reverse_inj.mp
    rw [List.reverse_append, List.reverse_reverse, List.reverse_replicate, ← hreturns,
      List.takeWhile_append_dropWhile]
  · rw [List.getLast?_reverse]
    intro hlast
    have := List.head?_dropWhile_not (· == '\r') line.reverse
    simp [hlast] at this

/-! ### Order -/

namespace LineIndex

theorem length_ofText (s : String) : (ofText s).length = (textBytes s).length := by
  rw [textBytes_eq, length_encoded, ofText]

theorem position_min (s : String) (offset : Nat) :
    (ofText s).position (min offset (textBytes s).length) = (ofText s).position offset := by
  simp only [position, ← length_ofText, Nat.min_assoc, Nat.min_self]

theorem exists_cut (s : String) (offset : Nat) : ∃ before line after,
    LineCut s.toList (min offset (textBytes s).length) before line after := by
  apply exists_lineCut
  rw [← length_ofText]
  exact Nat.min_le_right _ _

end LineIndex

/-- The line that holds an offset is cut out for it. Neither cut is inside a character. -/
theorem LineCut.lineInfo?_eq {offset : Nat}
    (h : LineCut s.toList (min offset (textBytes s).length) before line after) :
    lineInfo? s offset = some ⟨((LineIndex.ofText s).position offset).1,
      ((LineIndex.ofText s).position offset).2, trimReturns line⟩ := by
  have hlength : (textBytes s).length = width s.toList := (LineIndex.length_ofText s).symm
  have hstart := h.start_le
  have hstop := h.stop_eq
  have hwhole := h.whole
  rw [← LineIndex.position_min s offset, h.position_eq, lineInfo?, ← hlength, h.position_eq]
  generalize min offset (textBytes s).length = o at h hstart ⊢
  have hback : o - (o - width before + 1 - 1) = width before := by omega
  rw [← hlength] at hstop
  simp only [hback, hstop, hwhole, dropBytes?_append, slice?_append, Option.bind_eq_bind,
    Option.bind_some]
  rfl

theorem LineCut.lineInfo_eq (h : LineCut s.toList o before line after) :
    lineInfo s o = ⟨before.count '\n' + 1, o - width before + 1, trimReturns line⟩ := by
  have hmin : min o (textBytes s).length = o := by
    rw [← LineIndex.length_ofText]
    exact Nat.min_eq_left h.le_width
  have hinfo : lineInfo? s o = some _ := LineCut.lineInfo?_eq (hmin.symm ▸ h)
  rw [lineInfo, hinfo, h.position_eq]
  rfl

/-- A later offset is on a later line, or on a line with the same start. -/
theorem LineCut.later {o' : Nat} {before' line' after' : List Char}
    (h : LineCut s.toList o before line after) (h' : LineCut s.toList o' before' line' after')
    (hle : o ≤ o') :
    before.count '\n' < before'.count '\n' ∨
      before.count '\n' = before'.count '\n' ∧ width before = width before' := by
  have hstart := h.own_start
  rcases Nat.lt_trichotomy (before.count '\n') (before'.count '\n') with hlt | heq | hgt
  · exact .inl hlt
  · rw [heq] at hstart
    exact .inr ⟨heq, Option.some.inj (hstart.symm.trans h'.own_start)⟩
  · -- The start of the earlier offset's line would be behind the later offset.
    have hbehind := h'.lt_start_of_lt hgt hstart
    have := h.start_le
    omega

theorem monotone_position (s : String) :
    Monotone (fun offset => toLex ((LineIndex.ofText s).position offset)) := by
  intro offset offset' hle
  obtain ⟨before, line, after, h⟩ := LineIndex.exists_cut s offset
  obtain ⟨before', line', after', h'⟩ := LineIndex.exists_cut s offset'
  have hmin : min offset (textBytes s).length ≤ min offset' (textBytes s).length := by omega
  dsimp only
  rw [← LineIndex.position_min s offset, ← LineIndex.position_min s offset', h.position_eq,
    h'.position_eq, Prod.Lex.toLex_le_toLex]
  rcases h.later h' hmin with hlt | ⟨hcount, hstart⟩
  · exact .inl (Nat.succ_lt_succ hlt)
  · refine .inr ⟨congrArg (· + 1) hcount, ?_⟩
    simp only [hstart]
    omega

theorem injOn_position (s : String) :
    Set.InjOn (LineIndex.ofText s).position (Set.Iic (textBytes s).length) := by
  have hone {o o' : Nat} (ho' : o' ≤ (textBytes s).length) (hle : o ≤ o')
      (heq : (LineIndex.ofText s).position o = (LineIndex.ofText s).position o') : o = o' := by
    rw [← LineIndex.length_ofText] at ho'
    obtain ⟨before, line, after, h⟩ := exists_lineCut (hle.trans ho')
    obtain ⟨before', line', after', h'⟩ := exists_lineCut ho'
    have hstart := h.start_le
    have hstart' := h'.start_le
    rw [h.position_eq, h'.position_eq] at heq
    obtain ⟨hcount, hcolumn⟩ := Prod.mk.inj heq
    rcases h.later h' hle with hlt | ⟨-, hsame⟩ <;> omega
  intro o ho o' ho' heq
  rcases Nat.le_total o o' with hle | hle
  · exact hone ho' hle heq
  · exact (hone ho hle heq.symm).symm

/-- The line of an offset is one more than the number of newline bytes in front of it, and its column
one more than the number of bytes from where its line starts. On the way the search gives a place
with a start that is not behind the offset. So positions rise with offsets, no two offsets up to the
end share one, and what is cut out of the text between the start of that line and the next newline is
the line that holds the offset, but for carriage returns at its end. -/
theorem position_counts (s : String) :
    (∀ offset, ∃ o p, o = min offset (textBytes s).length ∧ LineStart (textBytes s) o p ∧
      (LineIndex.ofText s).position offset = (1 + ((textBytes s).take o).count 10, 1 + (o - p)) ∧
      (LineIndex.ofText s).Finds o p ∧
      ∃ before line after shown, LineCut s.toList o before line after ∧ width before = p ∧
        Trimmed line shown ∧ lineInfo? s offset = some ⟨((LineIndex.ofText s).position offset).1,
          ((LineIndex.ofText s).position offset).2, shown⟩) ∧
    Monotone (fun offset => toLex ((LineIndex.ofText s).position offset)) ∧
    Set.InjOn (LineIndex.ofText s).position (Set.Iic (textBytes s).length) := by
  refine ⟨fun offset => ?_, monotone_position s, injOn_position s⟩
  obtain ⟨before, line, after, h⟩ := LineIndex.exists_cut s offset
  refine ⟨_, width before, rfl, h.lineStart, ?_, h.finds, before, line, after, _, h, rfl,
    trimmed_trimReturns line, h.lineInfo?_eq⟩
  rw [← LineIndex.position_min s offset, h.position_eq, h.count_bytes, Nat.add_comm 1,
    Nat.add_comm 1]

end DeclFront
