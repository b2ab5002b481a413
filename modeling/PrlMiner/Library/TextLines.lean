import PrlMiner.Library.Python

/-! Lines of a text: as a text file has them, and as `str.splitlines` does. -/
namespace Python

/-- What `str.splitlines` breaks at. -/
def isLineBreak (c : CodePoint) : Bool :=
  10 ≤ c && c ≤ 13 || 28 ≤ c && c ≤ 30 || c = 0x85 || c = 0x2028 || c = 0x2029

/-- What a file in text mode reads: each line ends with `\n`. -/
def universalNewlines : Text → Text
  | [] => []
  | 13 :: 10 :: rest => 10 :: universalNewlines rest
  | 13 :: rest => 10 :: universalNewlines rest
  | c :: rest => c :: universalNewlines rest

/-- The lines of a file in text mode, with their ends. The one under way is reversed. -/
def readLinesFrom (line : Text) : Text → List Text
  | [] => if line.isEmpty then [] else [line.reverse]
  | c :: rest =>
      if c = 10 then (c :: line).reverse :: readLinesFrom [] rest else readLinesFrom (c :: line) rest

def readLines (s : Text) : List Text := readLinesFrom [] s

def splitlinesFrom (line : Text) : Text → List Text
  | [] => if line.isEmpty then [] else [line.reverse]
  | 13 :: 10 :: rest => line.reverse :: splitlinesFrom [] rest
  | c :: rest =>
      if isLineBreak c then line.reverse :: splitlinesFrom [] rest else splitlinesFrom (c :: line) rest

/-- `str.splitlines` -/
def splitlines (s : Text) : List Text := splitlinesFrom [] s

/-- A line without its end. -/
def chomp (line : Text) : Text := if line.getLast? = some 10 then line.dropLast else line

/-- The lines of a text, each with its end, are the whole text again. -/
theorem flatten_readLines (s : Text) : (readLines s).flatten = s := by
  have hFrom (line : Text) : (readLinesFrom line s).flatten = line.reverse ++ s := by
    induction s generalizing line with
    | nil => cases line <;> simp [readLinesFrom]
    | cons c rest ih =>
        by_cases hEnd : c = 10
        · simp [readLinesFrom, hEnd, ih]
        · simp [readLinesFrom, hEnd, ih]
  exact hFrom []

/-- No carriage return is left in a text that was read in text mode. -/
theorem not_mem_universalNewlines (s : Text) : 13 ∉ universalNewlines s := by
  fun_induction universalNewlines s with
  | case1 => simp
  | case2 rest ih => simp [ih]
  | case3 rest _ ih => simp [ih]
  | case4 c rest _ hOther ih =>
      rw [List.mem_cons, not_or]
      exact ⟨fun h => hOther h.symm, ih⟩

/-- A text without carriage returns is read in text mode as it is. -/
theorem universalNewlines_of_not_mem {s : Text} (h : 13 ∉ s) : universalNewlines s = s := by
  induction s with
  | nil => rfl
  | cons c rest ih =>
      rw [List.mem_cons, not_or] at h
      have hOther : c ≠ 13 := fun hSame => h.1 hSame.symm
      rw [universalNewlines, ih h.2] <;> simp [hOther]

/-- A text that was read in text mode is read again as it is, so that a log can be written
and read once more. -/
theorem universalNewlines_idem (s : Text) : universalNewlines (universalNewlines s) = universalNewlines s :=
  universalNewlines_of_not_mem (not_mem_universalNewlines s)

/-- Reading in text mode brings in no character but newlines. -/
theorem mem_universalNewlines {s : Text} {c : CodePoint} (h : c ∈ universalNewlines s) : c = 10 ∨ c ∈ s := by
  fun_induction universalNewlines s with
  | case1 => exact .inr h
  | case2 rest ih =>
      rcases List.mem_cons.mp h with rfl | h
      · exact .inl rfl
      · exact (ih h).imp_right fun h => List.mem_cons_of_mem _ (List.mem_cons_of_mem _ h)
  | case3 rest _ ih =>
      rcases List.mem_cons.mp h with rfl | h
      · exact .inl rfl
      · exact (ih h).imp_right (List.mem_cons_of_mem _)
  | case4 d rest _ _ ih =>
      rcases List.mem_cons.mp h with rfl | h
      · exact .inr List.mem_cons_self
      · exact (ih h).imp_right (List.mem_cons_of_mem _)

theorem chomp_of_not_mem {line : Text} (h : 10 ∉ line) : chomp line = line := by
  rw [chomp, if_neg fun hLast => h (List.mem_of_getLast? hLast)]

theorem chomp_append (line : Text) : chomp (line ++ [10]) = line := by
  simp [chomp]

/-- Where all line breaks are ends of lines, both ways give the same lines, and the ends
are cut off. `str.splitlines` breaks at more characters than a file does. -/
theorem splitlines_eq_readLines {s : Text} (h : ∀ c ∈ s, isLineBreak c = true → c = 10) :
    splitlines s = (readLines s).map chomp := by
  have hFrom (line : Text) (hLine : 10 ∉ line) : splitlinesFrom line s = (readLinesFrom line s).map chomp := by
    induction s generalizing line with
    | nil =>
        rw [splitlinesFrom, readLinesFrom]
        by_cases hEmpty : line.isEmpty
        · rw [if_pos hEmpty, List.map_nil]
        · rw [if_neg hEmpty, List.map_singleton, chomp_of_not_mem (by simpa using hLine)]
    | cons c rest ih =>
        obtain ⟨hFirst, hOthers⟩ := List.forall_mem_cons.mp h
        have hReturn : c ≠ 13 := by
          rintro rfl
          exact absurd (hFirst rfl) (by decide)
        have hSplit : splitlinesFrom line (c :: rest) =
            if isLineBreak c then line.reverse :: splitlinesFrom [] rest else splitlinesFrom (c :: line) rest := by
          rw [splitlinesFrom]
          simp [hReturn]
        rw [hSplit, readLinesFrom]
        by_cases hEnd : c = 10
        · have hBreak : isLineBreak c = true := by simp [hEnd, isLineBreak]
          rw [if_pos hBreak, if_pos hEnd, List.map_cons, ih hOthers [] List.not_mem_nil, hEnd, List.reverse_cons,
            chomp_append]
        · have hInside : isLineBreak c ≠ true := fun hBreak => hEnd (hFirst hBreak)
          rw [if_neg hInside, if_neg hEnd]
          exact ih hOthers (c :: line) (by simp [hLine, Ne.symm hEnd])
  exact hFrom [] List.not_mem_nil

end Python
