import CoverRun.Proofs.Text.Ascii
import CoverRun.Text.Lines

/-!
# Lines of bytes and of texts

A stream is a row of segments that line feeds end, and what comes after the last line feed. Its text
is the row of their texts (`Lines.chars_join`): decoding can be cut at a line feed, no line feed
comes out of a segment, and what is left of a segment without its trailing carriage returns decodes
to the text of the segment without them (`Lines.chars_dropReturns`). So the lines of a stream are
those of its text, whether it is well encoded or not (`Lines.ofBytes_eq_pieces`).
-/

namespace CoverRun.Lines

open Utf8

/-! ## Rows -/

section

variable {α : Type} {mark : α} {ended : List (List α)} {rest : List α}

/-- Rows with a mark after each, and what comes after the last mark. -/
def join (mark : α) (ended : List (List α)) (rest : List α) : List α :=
  ended.flatMap (· ++ [mark]) ++ rest

/-- The rows that a mark ends, and the last one if there is something of it. -/
def rows (ended : List (List α)) (rest : List α) : List (List α) :=
  if rest = [] then ended else ended ++ [rest]

theorem join_cons (row : List α) : join mark (row :: ended) rest =
    row ++ mark :: join mark ended rest := by
  simp [join]

theorem rows_cons (row : List α) : rows (row :: ended) rest = row :: rows ended rest := by
  by_cases h : rest = [] <;> simp [rows, h]

variable [DecidableEq α]

/-- Puts one item in front of rows: a mark ends a row of its own. -/
def consRow (mark item : α) (rows : List (List α)) : List (List α) :=
  if item = mark then [] :: rows
  else
    match rows with
    | [] => [[item]]
    | row :: rest => (item :: row) :: rest

/-- Every list can be cut into rows. -/
theorem exists_join (mark : α) (xs : List α) : ∃ ended rest,
    xs = join mark ended rest ∧ (∀ row ∈ ended, mark ∉ row) ∧ mark ∉ rest := by
  induction xs with
  | nil => exact ⟨[], [], rfl, List.forall_mem_nil _, List.not_mem_nil⟩
  | cons x xs ih =>
      obtain ⟨ended, rest, rfl, hEnded, hRest⟩ := ih
      by_cases hMark : x = mark
      · subst hMark
        refine ⟨[] :: ended, rest, (join_cons []).symm, ?_, hRest⟩
        exact List.forall_mem_cons.2 ⟨List.not_mem_nil, hEnded⟩
      · have hHere {row : List α} (h : mark ∉ row) : mark ∉ x :: row :=
          List.not_mem_cons_of_ne_of_not_mem (Ne.symm hMark) h
        cases ended with
        | nil => exact ⟨[], x :: rest, rfl, hEnded, hHere hRest⟩
        | cons row ended =>
            obtain ⟨hRow, hLater⟩ := List.forall_mem_cons.1 hEnded
            refine ⟨(x :: row) :: ended, rest, by rw [join_cons, join_cons]; rfl, ?_, hRest⟩
            exact List.forall_mem_cons.2 ⟨hHere hRow, hLater⟩

theorem foldr_consRow_cut {row : List α} (h : mark ∉ row) (xs : List α) :
    (row ++ mark :: xs).foldr (consRow mark) [] = row :: xs.foldr (consRow mark) [] := by
  induction row with
  | nil => exact if_pos rfl
  | cons x row ih =>
      rw [List.mem_cons, not_or] at h
      rw [List.cons_append, List.foldr_cons, ih h.2, consRow, if_neg (Ne.symm h.1)]

theorem foldr_consRow_rest (h : mark ∉ rest) :
    rest.foldr (consRow mark) [] = rows [] rest := by
  induction rest with
  | nil => rfl
  | cons x rest ih =>
      rw [List.mem_cons, not_or] at h
      rw [List.foldr_cons, ih h.2, consRow.eq_def, if_neg (Ne.symm h.1)]
      by_cases hEmpty : rest = [] <;> simp [rows, hEmpty]

/-- **Putting items in front one by one comes to the rows.** -/
theorem foldr_consRow (hEnded : ∀ row ∈ ended, mark ∉ row) (hRest : mark ∉ rest) :
    (join mark ended rest).foldr (consRow mark) [] = rows ended rest := by
  induction ended with
  | nil => exact foldr_consRow_rest hRest
  | cons row ended ih =>
      obtain ⟨hRow, hLater⟩ := List.forall_mem_cons.1 hEnded
      rw [join_cons, foldr_consRow_cut hRow, ih hLater, rows_cons]

/-- Splitting at the mark leaves an empty last piece after the last mark. -/
theorem splitOn_join (hEnded : ∀ row ∈ ended, mark ∉ row) (hRest : mark ∉ rest) :
    (join mark ended rest).splitOn mark = ended ++ [rest] := by
  induction ended with
  | nil => exact List.splitOn_eq_singleton hRest
  | cons row ended ih =>
      obtain ⟨hRow, hLater⟩ := List.forall_mem_cons.1 hEnded
      rw [join_cons, List.splitOn_append_cons_self_of_not_mem hRow, ih hLater, List.cons_append]

theorem count_join (hEnded : ∀ row ∈ ended, mark ∉ row) (hRest : mark ∉ rest) :
    (join mark ended rest).count mark = ended.length := by
  induction ended with
  | nil => exact List.count_eq_zero.2 hRest
  | cons row ended ih =>
      obtain ⟨hRow, hLater⟩ := List.forall_mem_cons.1 hEnded
      rw [join_cons, List.count_append, List.count_cons_self, ih hLater, List.count_eq_zero.2 hRow,
        List.length_cons, Nat.zero_add]

end

/-! ## Lines of a text -/

/-- Puts one character in front of pieces: a line feed ends a piece of its own. -/
def consChar (c : Char) (pieces : List (List Char)) : List (List Char) :=
  if c = '\n' then [] :: pieces
  else
    match pieces with
    | [] => [[c]]
    | p :: rest => (c :: p) :: rest

/-- The pieces of a text between line feeds; a text that ends with one has no empty last piece. -/
def pieces (cs : List Char) : List (List Char) := cs.foldr consChar []

/-- A piece without its trailing carriage returns. -/
def trimReturns (piece : List Char) : List Char :=
  (piece.reverse.dropWhile (· == '\r')).reverse

theorem consChar_eq : consChar = consRow '\n' := by
  funext c pieces
  cases pieces <;> rfl

theorem trimReturns_concat (piece : List Char) (c : Char) :
    trimReturns (piece ++ [c]) = if c = '\r' then trimReturns piece else piece ++ [c] := by
  by_cases h : c = '\r' <;> simp [trimReturns, h]

theorem trimReturns_prefix_self (piece : List Char) : trimReturns piece <+: piece := by
  rw [← List.reverse_suffix, trimReturns, List.reverse_reverse]
  exact List.dropWhile_suffix _

theorem pieces_join {ended : List (List Char)} {rest : List Char}
    (hEnded : ∀ p ∈ ended, '\n' ∉ p) (hRest : '\n' ∉ rest) :
    pieces (join '\n' ended rest) = rows ended rest := by
  rw [pieces, consChar_eq, foldr_consRow hEnded hRest]

theorem not_mem_pieces (cs : List Char) : ∀ p ∈ pieces cs, '\n' ∉ p := by
  obtain ⟨ended, rest, rfl, hEnded, hRest⟩ := exists_join '\n' cs
  rw [pieces_join hEnded hRest, rows]
  split
  · exact hEnded
  · exact List.forall_mem_append.2 ⟨hEnded, List.forall_mem_singleton.2 hRest⟩

theorem pieces_line {cs : List Char} (h : '\n' ∉ cs) : pieces (cs ++ ['\n']) = [cs] := by
  rw [pieces, consChar_eq, foldr_consRow_cut h]
  rfl

/-! ## Text of segments -/

theorem encodeChar_lineFeed : encodeChar '\n' = [lineFeed] := by decide

/-- The characters to which bytes decode. -/
abbrev chars (bytes : Bytes) : List Char := (decodeLenient bytes).toList

theorem chars_eq (bytes : Bytes) : chars bytes = (units bytes).map (·.getD '\uFFFD') :=
  String.toList_ofList

theorem lineFeed_not_mem_chars {bytes : Bytes} (h : lineFeed ∉ bytes) : '\n' ∉ chars bytes :=
  fun hMem => h (mem_of_mem_decodeLenient hMem (by decide))

theorem chars_eq_nil_iff {bytes : Bytes} : chars bytes = [] ↔ bytes = [] := by
  rw [chars_eq, List.map_eq_nil_iff]
  constructor
  · intro h
    rcases List.eq_nil_or_concat' bytes with hNil | ⟨front, b, rfl⟩
    · exact hNil
    · obtain ⟨us, back, hUnits, hBack, -⟩ := units_concat_spec front b
      rw [hUnits, List.append_eq_nil_iff] at h
      exact absurd h.2 hBack
  · rintro rfl
    rfl

/-- **The text of a stream is the row of the texts of its segments.** -/
theorem chars_join (ended : List Bytes) (rest : Bytes) :
    chars (join lineFeed ended rest) = join '\n' (ended.map chars) (chars rest) := by
  induction ended with
  | nil => rfl
  | cons s ended ih =>
      rw [join_cons, List.map_cons, join_cons, ← ih]
      exact decodeLenient_append_ascii s _ (by decide)

theorem rows_chars (ended : List Bytes) (rest : Bytes) :
    rows (ended.map chars) (chars rest) = (rows ended rest).map chars := by
  by_cases h : rest = []
  · rw [rows, rows, if_pos h, if_pos (chars_eq_nil_iff.2 h)]
  · rw [rows, rows, if_neg h, if_neg (mt chars_eq_nil_iff.1 h), List.map_append]
    rfl

/-! ## Carriage returns -/

theorem dropReturns_concat (segment : Bytes) (b : UInt8) : dropReturns (segment ++ [b]) =
    if b = carriageReturn then dropReturns segment else segment ++ [b] := by
  by_cases h : b = carriageReturn <;> simp [dropReturns, h]

theorem dropReturns_spec (segment : Bytes) :
    (∃ n, segment = dropReturns segment ++ List.replicate n carriageReturn) ∧
      (dropReturns segment).getLast? ≠ some carriageReturn := by
  induction segment using List.reverseRecOn with
  | nil => exact ⟨⟨0, rfl⟩, by simp [dropReturns]⟩
  | append_singleton segment b ih =>
      rw [dropReturns_concat]
      split
      · next hReturn =>
        obtain ⟨⟨n, hn⟩, hLast⟩ := ih
        refine ⟨⟨n + 1, ?_⟩, hLast⟩
        rw [List.replicate_succ', ← List.append_assoc, ← hn, hReturn]
      · next hOther => exact ⟨⟨0, (List.append_nil _).symm⟩, by simp [hOther]⟩

/-- **Trailing carriage returns may be dropped before or after decoding.** -/
theorem chars_dropReturns (segment : Bytes) :
    chars (dropReturns segment) = trimReturns (chars segment) := by
  induction segment using List.reverseRecOn with
  | nil => rfl
  | append_singleton segment b ih =>
      rw [dropReturns_concat]
      split
      · next hReturn =>
        subst hReturn
        have hCut : chars (segment ++ [carriageReturn]) = chars segment ++ ['\r'] :=
          decodeLenient_append_ascii segment [] (by decide)
        rw [ih, hCut, trimReturns_concat, if_pos rfl]
      · next hOther =>
        obtain ⟨front, back, hUnits, hBack, -, hAscii⟩ := units_concat_spec segment b
        obtain ⟨back, u, rfl⟩ := (List.eq_nil_or_concat' back).resolve_left hBack
        have hLast : u.getD '\uFFFD' ≠ '\r' := by
          cases u with
          | none => decide
          | some c =>
              rintro (rfl : c = '\r')
              have hNat : b.toNat = carriageReturn.toNat := hAscii '\r' (by simp) (by decide)
              exact hOther (UInt8.toNat_inj.1 hNat)
        rw [chars_eq, hUnits, ← List.append_assoc, List.map_append, List.map_singleton,
          trimReturns_concat, if_neg hLast]

/-! ## Lines of a stream -/

theorem consByte_eq : consByte = consRow lineFeed := by
  funext b segments
  cases segments <;> rfl

theorem segments_join {ended : List Bytes} {rest : Bytes} (hEnded : ∀ s ∈ ended, lineFeed ∉ s)
    (hRest : lineFeed ∉ rest) : segments (join lineFeed ended rest) = rows ended rest := by
  rw [segments, consByte_eq, foldr_consRow hEnded hRest]

/-- **Lines of bytes are lines of their text**, whatever the bytes are. -/
theorem ofBytes_eq_pieces (bytes : Bytes) :
    ofBytes bytes = (pieces (chars bytes)).map fun p => String.ofList (trimReturns p) := by
  obtain ⟨ended, rest, rfl, hEnded, hRest⟩ := exists_join lineFeed bytes
  have hTexts : ∀ p ∈ ended.map chars, '\n' ∉ p := by
    rintro _ hp
    obtain ⟨s, hs, rfl⟩ := List.mem_map.1 hp
    exact lineFeed_not_mem_chars (hEnded s hs)
  rw [ofBytes, segments_join hEnded hRest, chars_join,
    pieces_join hTexts (lineFeed_not_mem_chars hRest), rows_chars, List.map_map]
  refine List.map_congr_left fun s _ => ?_
  rw [Function.comp, ← chars_dropReturns, String.ofList_toList]

theorem ofBytes_encode (cs : List Char) :
    ofBytes (cs.flatMap encodeChar) = (pieces cs).map fun p => String.ofList (trimReturns p) := by
  rw [ofBytes_eq_pieces, chars, decodeLenient_encode, String.toList_ofList]

/-! ## Splitting the text of a stream -/

/-- A line is the text of a segment without the carriage returns at its end. -/
def IsLine (segment : Bytes) (line : String) : Prop :=
  ∃ kept n, segment = kept ++ List.replicate n carriageReturn ∧
    kept.getLast? ≠ some carriageReturn ∧ line = decodeLenient kept

/-- The lines of a text: what line feeds split it into, without an empty last piece and without the
carriage returns at the end of each piece. -/
def ofText (text : String) : List String :=
  let split := text.toList.splitOn '\n'
  (if split.getLast? = some [] then split.dropLast else split).map fun p =>
    String.ofList (trimReturns p)

theorem pieces_eq_splitOn (cs : List Char) :
    pieces cs = if (cs.splitOn '\n').getLast? = some [] then (cs.splitOn '\n').dropLast
      else cs.splitOn '\n' := by
  obtain ⟨ended, rest, rfl, hEnded, hRest⟩ := exists_join '\n' cs
  rw [pieces_join hEnded hRest, splitOn_join hEnded hRest, rows]
  simp

/-- **The lines of a stream.** Each line feed ends one line, and bytes after the last line feed make
one more. Each line is the text of its segment without the carriage returns at the end, and holds no
line feed. The same lines come from splitting the text of the whole stream, even where a line feed
or the end of the stream cuts off a character. -/
theorem ofBytes_splits (bytes : Bytes) :
    (∃ ended rest, bytes = join lineFeed ended rest ∧ (∀ s ∈ ended, lineFeed ∉ s) ∧
      lineFeed ∉ rest ∧ ended.length = bytes.count lineFeed ∧
      (ofBytes bytes).length = bytes.count lineFeed + (if rest = [] then 0 else 1) ∧
      List.Forall₂ IsLine (rows ended rest) (ofBytes bytes)) ∧
    (∀ line ∈ ofBytes bytes, '\n' ∉ line.toList) ∧
    ofBytes bytes = ofText (decodeLenient bytes) := by
  refine ⟨?_, fun line hLine => ?_, ?_⟩
  · obtain ⟨ended, rest, rfl, hEnded, hRest⟩ := exists_join lineFeed bytes
    have hCount := count_join hEnded hRest
    refine ⟨ended, rest, rfl, hEnded, hRest, hCount.symm, ?_, ?_⟩
    · rw [ofBytes, segments_join hEnded hRest, List.length_map, hCount, rows]
      split <;> simp
    · rw [ofBytes, segments_join hEnded hRest, List.forall₂_map_right_iff, List.forall₂_same]
      intro s _
      obtain ⟨⟨n, hSegment⟩, hLast⟩ := dropReturns_spec s
      exact ⟨dropReturns s, n, hSegment, hLast, rfl⟩
  · rw [ofBytes_eq_pieces] at hLine
    obtain ⟨p, hp, rfl⟩ := List.mem_map.1 hLine
    rw [String.toList_ofList]
    exact fun hMem => not_mem_pieces _ p hp ((trimReturns_prefix_self p).mem hMem)
  · rw [ofBytes_eq_pieces, pieces_eq_splitOn]
    rfl

/-- Characters that a carriage return, a line feed and the end cut off. -/
example : ofBytes [0x61, 0xE2, 0x82, 0x0D, 0x0A, 0xF0, 0x9F, 0x0A, 0x0A, 0x0D, 0x62, 0xC3] =
    ["a\uFFFD", "\uFFFD", "", "\rb\uFFFD"] := by decide

end CoverRun.Lines
