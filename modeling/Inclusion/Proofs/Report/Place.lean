import Inclusion.Directive.Reader
import Inclusion.Proofs.Report.Line
import Inclusion.Proofs.Token.Place
import Inclusion.Proofs.Token.Written
/-!
# Where a report points

A report says on which line and at which column its error is, and shows that line. It counts the place of the error in
characters, but places are counted in bytes. So it points at the character that begins at the place of the error exactly
if all characters before it take one byte (`report_points_iff`), and past the end of the text it shows nothing.
-/

namespace Inclusion

/-- What a report on the error is headed with. -/
def CompileError.title : CompileError → String
  | malformed (f :: _) => f.message
  | e => e.message

namespace Report

open Lexer (takeWhile_append_stop isDigit_of_mem_toDigits)

variable {cs before after : List Char} {c : Char} {i : Nat} {source file title label text : String} {span : Span}
  {first last l : Line}

/-- A text that begins with a title, the line and the column of the character with an index, and the line itself. -/
def PointsAt (cs : List Char) (i : Nat) (title file text : String) : Prop :=
  ∃ l ∈ lines cs, l.start ≤ i ∧ i < l.stop ∧ ∃ margin pad arrow rest, (arrow = "" ∨ arrow = "╭─▶ ") ∧
    text = "Error: " ++ title ++ "\n" ++
      (spaces margin ++ "╭─[" ++ file ++ ":" ++ toString (position cs i).1 ++ ":" ++ toString (position cs i).2 ++ "]\n" ++
      (spaces margin ++ "│\n" ++
      (spaces pad ++ toString (position cs i).1 ++ (" │ " ++ arrow ++ showLine l ++ "\n" ++ rest))))

/-! ### The excerpt -/

/-- The rows for a label from a line to a line. -/
def labelRows (first last : Line) (span : Span) (label : String) : List Row :=
  if first.number = last.number then inlineRows first span.start span.stop label
  else spanningRows first last span.stop label

theorem excerpt?_eq_some (file label : String) (hfirst : lineAt cs span.start = some first)
    (hlast : lineAt cs (max span.start (span.stop - 1)) = some last) : excerpt? cs file span label =
      some ⟨file, first.number, span.start - first.start + 1, last.number, labelRows first last span label⟩ := by
  rw [excerpt?, hfirst, hlast]
  rfl

theorem exists_of_excerpt? {e : Excerpt} (h : excerpt? cs file span label = some e) : ∃ first last,
    lineAt cs span.start = some first ∧ lineAt cs (max span.start (span.stop - 1)) = some last ∧
      e = ⟨file, first.number, span.start - first.start + 1, last.number, labelRows first last span label⟩ := by
  rw [excerpt?] at h
  split at h
  · next first last hfirst hlast =>
    cases h
    exact ⟨first, last, hfirst, hlast, rfl⟩
  · cases h

/-- The first line is among the rows unless the label is on that line only and stops beyond it. -/
theorem labelRows_of_le (h : first.number = last.number → span.stop ≤ first.stop) (label : String) :
    ∃ arrow others, (arrow = "" ∨ arrow = "╭─▶ ") ∧
      labelRows first last span label = .line first.number (arrow ++ showLine first) :: others := by
  rw [labelRows]
  split
  · next hline =>
    rw [inlineRows, if_pos (h hline)]
    exact ⟨"", _, .inl rfl, by rw [String.empty_append]⟩
  · exact ⟨"╭─▶ ", _, .inr rfl, rfl⟩

theorem labelRows_of_lt (hline : first.number = last.number) (h : first.stop < span.stop) (label : String) :
    labelRows first last span label = [.drawn ""] := by
  rw [labelRows, if_pos hline, inlineRows, if_neg (Nat.not_le.mpr h)]

/-! ### The text of a report -/

/-- What is drawn below the title. -/
def drawn (e : Excerpt) : String :=
  String.join (e.render.map (· ++ "\n"))

theorem render_eq_none_iff : render source file span title label = none ↔ span.stop < span.start := by
  rw [render]
  split
  · next h => exact iff_of_true rfl h
  · next h => exact iff_of_false (by simp) h

theorem le_of_render (h : render source file span title label = some text) : span.start ≤ span.stop := by
  by_contra hbackward
  rw [render_eq_none_iff.mpr (Nat.not_le.mp hbackward)] at h
  cases h

theorem render_of_excerpt (hle : span.start ≤ span.stop) {e : Excerpt} (h : excerpt? source.toList file span label = some e) :
    render source file span title label = some ("Error: " ++ title ++ "\n" ++ drawn e) := by
  rw [render, if_neg (Nat.not_lt.mpr hle), h]
  dsimp only
  rw [List.map_cons, String.join_cons]
  rfl

theorem render_of_none (hle : span.start ≤ span.stop) (h : excerpt? source.toList file span label = none) :
    render source file span title label = some ("Error: " ++ title ++ "\n") := by
  rw [render, if_neg (Nat.not_lt.mpr hle), h]
  rfl

theorem drawn_cons (file : String) (line column lastLine : Nat) (row : Row) (others : List Row) : ∃ margin width rest,
    drawn ⟨file, line, column, lastLine, row :: others⟩ =
      spaces margin ++ "╭─[" ++ file ++ ":" ++ toString line ++ ":" ++ toString column ++ "]\n" ++
      (spaces margin ++ "│\n" ++ (row.render width ++ "\n" ++ rest)) := by
  let width := (toString lastLine).length
  let below := others.map (Row.render width) ++ [String.ofList (List.replicate (width + 2) '─') ++ "╯"]
  refine ⟨width + 2, width, String.join (below.map (· ++ "\n")), ?_⟩
  have hrows : (Excerpt.render ⟨file, line, column, lastLine, row :: others⟩) =
      (spaces (width + 2) ++ Excerpt.header ⟨file, line, column, lastLine, row :: others⟩) ::
        (spaces (width + 2) ++ "│") :: row.render width :: below := rfl
  rw [drawn, hrows, Excerpt.header]
  simp only [List.map_cons, String.join_cons, String.append_assoc]
  have hclose : "]\n" = "]" ++ "\n" := rfl
  have hmargin : "│\n" = "│" ++ "\n" := rfl
  rw [hclose, hmargin, String.append_assoc, String.append_assoc]

/-! ### Reading the place off -/

theorem append_cons_inj {p : Char → Bool} {as as' bs bs' : List Char} {b b' : Char} (has : ∀ c ∈ as, p c = true)
    (has' : ∀ c ∈ as', p c = true) (hb : p b = false) (hb' : p b' = false) (h : as ++ b :: bs = as' ++ b' :: bs') :
    as = as' ∧ b = b' ∧ bs = bs' := by
  have hfirst : (as ++ b :: bs).takeWhile p = as := takeWhile_append_stop has (by simpa using hb)
  have hsecond : (as' ++ b' :: bs').takeWhile p = as' := takeWhile_append_stop has' (by simpa using hb')
  obtain rfl : as = as' := by rw [← hfirst, h, hsecond]
  obtain ⟨rfl, rfl⟩ := List.cons.inj (List.append_cancel_left h)
  exact ⟨rfl, rfl, rfl⟩

theorem spaces_append_inj {m n : Nat} {bs bs' : List Char} {b b' : Char} (hb : b ≠ ' ') (hb' : b' ≠ ' ')
    (h : List.replicate m ' ' ++ b :: bs = List.replicate n ' ' ++ b' :: bs') : b = b' ∧ bs = bs' := by
  have hspaces (k : Nat) : ∀ c ∈ List.replicate k ' ', decide (c = ' ') = true := by
    intro c hc
    exact decide_eq_true (List.eq_of_mem_replicate hc)
  exact (append_cons_inj (hspaces m) (hspaces n) (decide_eq_false hb) (decide_eq_false hb') h).2

theorem digits_append_inj {m n : Nat} {bs bs' : List Char} {b : Char} (hb : b.isDigit = false)
    (h : Nat.toDigits 10 m ++ b :: bs = Nat.toDigits 10 n ++ b :: bs') : m = n ∧ bs = bs' := by
  obtain ⟨hdigits, -, hrest⟩ := append_cons_inj (isDigit_of_mem_toDigits m) (isDigit_of_mem_toDigits n) hb hb h
  have hvalue := congrArg (fun digits => Nat.ofDigitChars 10 digits 0) hdigits
  rw [Nat.ofDigitChars_ten_toDigits, Nat.ofDigitChars_ten_toDigits] at hvalue
  exact ⟨hvalue, hrest⟩

theorem toList_spaces (n : Nat) : (spaces n).toList = List.replicate n ' ' := String.toList_ofList

theorem toList_toString (n : Nat) : (toString n).toList = Nat.toDigits 10 n := by
  rw [Nat.toString_eq_repr, Nat.toList_repr]

/-- The line and the column can be read off the first row below the title. -/
theorem header_inj {m n line line' column column' : Nat} {rest rest' : String}
    (h : spaces m ++ "╭─[" ++ file ++ ":" ++ toString line ++ ":" ++ toString column ++ "]\n" ++ rest =
      spaces n ++ "╭─[" ++ file ++ ":" ++ toString line' ++ ":" ++ toString column' ++ "]\n" ++ rest') :
    line = line' ∧ column = column' ∧ rest = rest' := by
  have hlist := congrArg String.toList h
  simp only [String.toList_append, toList_spaces, toList_toString, String.reduceToList, List.append_assoc, List.cons_append,
    List.nil_append] at hlist
  obtain ⟨-, hlist⟩ := spaces_append_inj (by decide) (by decide) hlist
  have hnumbers := List.append_cancel_left (List.cons.inj (List.cons.inj hlist).2).2
  obtain ⟨hline, hlist⟩ := digits_append_inj (by decide) (List.cons.inj hnumbers).2
  obtain ⟨hcolumn, hlist⟩ := digits_append_inj (by decide) hlist
  exact ⟨hline, hcolumn, String.toList_inj.mp (List.cons.inj hlist).2⟩

theorem drawn_append_inj {line column lastLine line' column' m : Nat} {row : Row} {others : List Row} {tail below : String}
    (h : drawn ⟨file, line, column, lastLine, row :: others⟩ ++ tail =
      spaces m ++ "╭─[" ++ file ++ ":" ++ toString line' ++ ":" ++ toString column' ++ "]\n" ++ below) :
    line = line' ∧ column = column' ∧
      ∃ n width rest, spaces n ++ "│\n" ++ (row.render width ++ rest) = below := by
  obtain ⟨n, width, rest, hdrawn⟩ := drawn_cons file line column lastLine row others
  rw [hdrawn, String.append_assoc] at h
  obtain ⟨hline, hcolumn, hbelow⟩ := header_inj h
  refine ⟨hline, hcolumn, n, width, "\n" ++ rest ++ tail, ?_⟩
  rw [← hbelow]
  simp only [String.append_assoc]

/-- A row without a number is no line of the text. -/
theorem drawn_ne_line {margin width pad n number : Nat} {content rest rest' : String} :
    spaces margin ++ "│\n" ++ ((Row.drawn content).render width ++ rest) ≠
      spaces pad ++ "│\n" ++ (spaces n ++ toString number ++ rest') := by
  intro h
  have hlist := congrArg String.toList h
  rw [Row.render] at hlist
  simp only [String.toList_append, toList_spaces, toList_toString, String.reduceToList, List.append_assoc, List.cons_append,
    List.nil_append] at hlist
  obtain ⟨-, hlist⟩ := spaces_append_inj (by decide) (by decide) hlist
  obtain ⟨digit, others, hdigits⟩ := List.exists_cons_of_ne_nil (Nat.toDigits_ne_nil (b := 10) (n := number))
  have hdigit : digit.isDigit = true := isDigit_of_mem_toDigits number digit (by simp [hdigits])
  rw [hdigits, List.cons_append] at hlist
  have hblank : digit ≠ ' ' := by
    rintro rfl
    exact absurd hdigit (by decide)
  obtain ⟨rfl, -⟩ := spaces_append_inj (by decide) hblank (List.cons.inj hlist).2
  exact absurd hdigit (by decide)

theorem tail_ne_header {tail rest : String} {m : Nat} (htail : tail = "" ∨ ∃ more, tail = "\n" ++ more) :
    tail ≠ spaces m ++ ("╭─[" ++ rest) := by
  intro h
  have hlist := congrArg String.toList h
  simp only [String.toList_append, toList_spaces, String.reduceToList] at hlist
  rcases htail with rfl | ⟨more, rfl⟩
  · simp at hlist
  · rw [String.toList_append] at hlist
    obtain ⟨hfirst, -⟩ := spaces_append_inj (m := 0) (by decide) (by decide) hlist
    exact absurd hfirst (by decide)

/-! ### Reports that point at a character -/

/-- The place of an error at a character is counted right if no character before it takes several bytes, and is shown if it
stops in the text, or at most one character beyond it if the line of the character is not the last one. -/
structure CountedRight (cs before : List Char) (span : Span) : Prop where
  forward : span.start ≤ span.stop
  single : byteLength before = before.length
  shown : span.stop ≤ cs.length ∨ span.stop = cs.length + 1 ∧ ∃ l ∈ lines cs, span.start < l.start

theorem render_line (width number : Nat) (content : String) : ∃ pad, (Row.line number content).render width =
    spaces pad ++ toString number ++ (" │ " ++ content) := by
  have hspace (k : Nat) : " " ++ spaces k = spaces (k + 1) := by
    rw [← String.toList_inj, String.toList_append, toList_spaces, toList_spaces]
    rfl
  refine ⟨width - (toString number).length + 1, ?_⟩
  rw [Row.render, hspace, String.append_assoc, String.append_assoc]

/-- The label is drawn at its line exactly if it stops in the text or goes on to a later line. -/
theorem stop_le_iff (hfirst : lineAt cs span.start = some first) (hlast : lineAt cs (max span.start (span.stop - 1)) = some last)
    (hlt : span.start < first.stop) : (first.number = last.number → span.stop ≤ first.stop) ↔
      (span.stop ≤ cs.length ∨ span.stop = cs.length + 1 ∧ ∃ l ∈ lines cs, span.start < l.start) := by
  obtain ⟨hmem, hstart, -, -⟩ := before_of_lineAt hfirst
  obtain ⟨hlastMem, hlastStart, hwithin, hbefore⟩ := before_of_lineAt hlast
  have hlength := stop_le_length hmem
  have horder := hbefore first hmem (by omega)
  constructor
  · intro h
    rcases horder with rfl | horder
    · exact .inl (Nat.le_trans (h rfl) hlength)
    · by_cases hstop : span.stop ≤ cs.length
      · exact .inl hstop
      · refine .inr ⟨by omega, last, hlastMem, ?_⟩
        exact Nat.lt_of_lt_of_le hlt horder.2
  · intro h hline
    rcases horder with rfl | horder
    · rcases h with hstop | ⟨hstop, m, hm, hlater⟩
      · by_cases hempty : span.stop ≤ span.start
        · omega
        · obtain ⟨m, hm, hmstart, hmstop, -⟩ := exists_position (show span.stop - 1 < cs.length by omega)
          obtain rfl := eq_of_lineAt hlast hm (by omega) (by omega)
          omega
      · have hmstop := stop_le_length hm
        have hmle : m.start ≤ m.stop := Nat.le_add_right _ _
        rcases hbefore m hm (by omega) with rfl | hmbefore
        · omega
        · have hafter := hmbefore.2
          omega
    · exact absurd hline (Nat.ne_of_lt horder.1)

section

variable (hcs : source.toList = before ++ c :: after) (hstart : span.start = byteLength before)

include hcs in
theorem length_lt : before.length < source.toList.length := by
  rw [hcs, List.length_append, List.length_cons]
  omega

include hcs hstart in
theorem pointsAt_of_countedRight (h : CountedRight source.toList before span) : ∃ text,
    render source file span title label = some text ∧ PointsAt source.toList before.length title file text := by
  have hi := length_lt hcs
  have hne : source.toList ≠ [] := by simp [hcs]
  have hplace : span.start = before.length := hstart.trans h.single
  have hstop : span.stop ≤ source.toList.length + 1 := by
    rcases h.shown with hstop | ⟨hstop, -⟩ <;> omega
  obtain ⟨l, hmem, hlstart, hlstop, hposition⟩ := exists_position hi
  obtain ⟨first, hfirst⟩ := exists_lineAt hne (i := span.start) (by omega)
  obtain ⟨last, hlast⟩ := exists_lineAt hne (i := max span.start (span.stop - 1)) (by omega)
  obtain rfl := eq_of_lineAt hfirst hmem (by omega) (by omega)
  obtain ⟨arrow, others, harrow, hrows⟩ := labelRows_of_le ((stop_le_iff hfirst hlast (by omega)).mpr h.shown) label
  have hexcerpt := excerpt?_eq_some file label hfirst hlast
  rw [hrows, hplace] at hexcerpt
  obtain ⟨margin, width, rest, hdrawn⟩ := drawn_cons file l.number (before.length - l.start + 1) last.number
    (.line l.number (arrow ++ showLine l)) others
  obtain ⟨pad, hrow⟩ := render_line width l.number (arrow ++ showLine l)
  refine ⟨_, render_of_excerpt h.forward hexcerpt, l, hmem, hlstart, hlstop, margin, pad, arrow, rest, harrow, ?_⟩
  rw [hdrawn, hposition, hrow]
  simp only [String.append_assoc]

include hcs hstart in
theorem countedRight_of_pointsAt {tail : String} (htail : tail = "" ∨ ∃ more, tail = "\n" ++ more)
    (hrender : render source file span title label = some text)
    (h : PointsAt source.toList before.length title file (text ++ tail)) : CountedRight source.toList before span := by
  have hchars : before.length ≤ span.start := hstart ▸ length_le_byteLength before
  obtain ⟨l, -, -, -, margin, pad, arrow, rest, -, htext⟩ := h
  have hforward := le_of_render hrender
  cases hexcerpt : excerpt? source.toList file span label with
  | none =>
    -- Below the title there is nothing, or an empty row.
    rw [render_of_none hforward hexcerpt] at hrender
    obtain rfl := Option.some.inj hrender
    have htail' := (String.append_right_inj _).mp htext
    simp only [String.append_assoc] at htail'
    exact absurd htail' (tail_ne_header htail)
  | some e =>
    rw [render_of_excerpt hforward hexcerpt] at hrender
    obtain rfl := Option.some.inj hrender
    obtain ⟨first, last, hfirst, hlast, rfl⟩ := exists_of_excerpt? hexcerpt
    rw [String.append_assoc] at htext
    have hdrawn := (String.append_right_inj _).mp htext
    by_cases hshown : first.number = last.number → span.stop ≤ first.stop
    · obtain ⟨row, others, -, hrows⟩ := labelRows_of_le hshown label
      rw [hrows] at hdrawn
      obtain ⟨hline, hcolumn, -⟩ := drawn_append_inj hdrawn
      obtain ⟨hplace, hlt⟩ := eq_of_position hfirst (length_lt hcs) hchars (Prod.ext hline.symm hcolumn.symm)
      exact ⟨hforward, hstart.symm.trans hplace, (stop_le_iff hfirst hlast hlt).mp hshown⟩
    · obtain ⟨hline, hstop⟩ := Classical.not_imp.mp hshown
      rw [labelRows_of_lt hline (Nat.not_le.mp hstop)] at hdrawn
      obtain ⟨-, -, n, width, below, hbelow⟩ := drawn_append_inj hdrawn
      exact absurd hbelow drawn_ne_line

include hcs hstart in
theorem pointsAt_iff : (∃ text, render source file span title label = some text ∧
    PointsAt source.toList before.length title file text) ↔ CountedRight source.toList before span := by
  constructor
  · rintro ⟨text, htext, hpoints⟩
    rw [← String.append_empty (s := text)] at hpoints
    exact countedRight_of_pointsAt hcs hstart (.inl rfl) htext hpoints
  · exact pointsAt_of_countedRight hcs hstart

end

theorem PointsAt.append (h : PointsAt cs i title file text) (tail : String) : PointsAt cs i title file (text ++ tail) := by
  obtain ⟨l, hmem, hstart, hstop, margin, pad, arrow, rest, harrow, rfl⟩ := h
  refine ⟨l, hmem, hstart, hstop, margin, pad, arrow, rest ++ tail, harrow, ?_⟩
  simp only [String.append_assoc]

end Report

open Report

variable {before after : List Char} {c : Char} {source file : String} {span : Span}

theorem exists_reports {faults : List Fault} (h : ∀ f ∈ faults, f.span.start ≤ f.span.stop) (source file : String) :
    ∃ texts, faults.mapM (Fault.report source file) = some texts := by
  induction faults with
  | nil => exact ⟨[], rfl⟩
  | cons f faults ih =>
    obtain ⟨hf, hfaults⟩ := List.forall_mem_cons.mp h
    obtain ⟨texts, htexts⟩ := ih hfaults
    obtain ⟨text, htext⟩ : ∃ text, f.report source file = some text := by
      refine Option.ne_none_iff_exists'.mp fun hnone => ?_
      exact absurd (render_eq_none_iff.mp hnone) (Nat.not_lt.mpr hf)
    exact ⟨text :: texts, by simp [List.mapM_cons, htext, htexts]⟩

/-- The report on the first of several faults is followed by those on the others. -/
theorem CompileError.report_malformed (source file : String) (f : Fault) {others : List Fault}
    (h : ∀ g ∈ others, g.span.start ≤ g.span.stop) : ∃ tail, (tail = "" ∨ ∃ more, tail = "\n" ++ more) ∧
      (malformed (f :: others)).report source file = (f.report source file).map (· ++ tail) := by
  obtain ⟨texts, htexts⟩ := exists_reports h source file
  have hreport : (malformed (f :: others)).report source file =
      (f.report source file).map fun text => "\n".intercalate (text :: texts) := by
    rw [report, List.mapM_cons, htexts]
    cases f.report source file <;> rfl
  rw [hreport]
  cases texts with
  | nil => exact ⟨"", .inl rfl, by simp⟩
  | cons text texts =>
    refine ⟨"\n" ++ "\n".intercalate (text :: texts), .inr ⟨_, rfl⟩, ?_⟩
    simp only [String.intercalate_cons_cons, String.append_assoc]

theorem pointsAt_malformed_iff {f : Fault} {others : List Fault} (hcs : source.toList = before ++ c :: after)
    (hstart : f.span.start = byteLength before) (h : ∀ g ∈ others, g.span.start ≤ g.span.stop) :
    (∃ text, (CompileError.malformed (f :: others)).report source file = some text ∧
      PointsAt source.toList before.length f.message file text) ↔ CountedRight source.toList before f.span := by
  obtain ⟨tail, htail, hreport⟩ := CompileError.report_malformed source file f h
  rw [hreport]
  constructor
  · rintro ⟨text, htext, hpoints⟩
    obtain ⟨text, hfirst, rfl⟩ := Option.map_eq_some_iff.mp htext
    exact countedRight_of_pointsAt hcs hstart htail hfirst hpoints
  · intro h
    obtain ⟨text, hfirst, hpoints⟩ : ∃ text, f.report source file = some text ∧
        PointsAt source.toList before.length f.message file text := pointsAt_of_countedRight hcs hstart h
    exact ⟨text ++ tail, Option.map_eq_some_iff.mpr ⟨text, hfirst, rfl⟩, hpoints.append tail⟩

theorem parse_of_firstRejected {tag : String} {cs text : List Char} {s : Span}
    (h : Lexer.firstRejected 0 cs = some (text, s)) :
    Directive.parse tag 0 cs = .error ⟨.rejected (String.ofList text), s⟩ := by
  rw [Directive.parse, Directive.scan, h]

/-- The report on an error points at the character where its place begins exactly if the characters before it take one byte
each, and the place does not run backwards and does not end past the text, counted in characters. -/
theorem report_points_iff (hcs : source.toList = before ++ c :: after) (hstart : span.start = byteLength before) :
    (∀ f : Fault, f.span = span →
      ((∃ text, f.report source file = some text ∧ PointsAt source.toList before.length f.message file text) ↔
        CountedRight source.toList before span)) ∧
    ∀ e : CompileError, e.span? = some span →
      (∀ faults, e = .malformed faults → ∀ f ∈ faults.tail, f.span.start ≤ f.span.stop) →
      ((∃ text, e.report source file = some text ∧ PointsAt source.toList before.length e.title file text) ↔
        CountedRight source.toList before span) := by
  constructor
  · rintro f rfl
    exact pointsAt_iff hcs hstart
  · intro e hspan hothers
    cases e with
    | malformed faults =>
      cases faults with
      | nil => cases hspan
      | cons f others =>
        obtain rfl : f.span = span := Option.some.inj hspan
        exact pointsAt_malformed_iff hcs hstart (hothers _ rfl)
    | catalog e place =>
      obtain rfl : place = some span := hspan
      exact pointsAt_iff hcs hstart
    | config e place =>
      obtain rfl : place = some span := hspan
      exact pointsAt_iff hcs hstart
    | unknownTag tag place =>
      obtain rfl : place = span := Option.some.inj hspan
      exact pointsAt_iff hcs hstart

/-- What comes behind the error does not matter. -/
theorem report_points_second_line : let source := "render \"e\"\n $ 'é'"
    let f : Fault := ⟨.rejected "$", ⟨12, 13⟩⟩
    Directive.parse "render" 0 source.toList = .error f ∧ position source.toList 12 = (2, 2) ∧
      ∃ text, f.report source "page.twig" = some text ∧ PointsAt source.toList 12 f.message "page.twig" text := by
  intro source f
  have hcs : source.toList = "render \"e\"\n ".toList ++ '$' :: " 'é'".toList := by decide
  have hstart : f.span.start = byteLength "render \"e\"\n ".toList := by decide
  have hrejected : Lexer.firstRejected 0 source.toList = some (['$'], ⟨12, 13⟩) := by decide +kernel
  refine ⟨parse_of_firstRejected hrejected, by decide, ((report_points_iff hcs hstart).1 f rfl).mpr ?_⟩
  exact ⟨by decide, by decide, .inl (by decide)⟩

/-- Behind one character of two bytes, the report points at the character after the right one. -/
theorem report_points_elsewhere : let source := "render \"é\" $ only"
    let f : Fault := ⟨.rejected "$", ⟨12, 13⟩⟩
    Directive.parse "render" 0 source.toList = .error f ∧ InText source.toList f.span ∧ position source.toList 11 = (1, 12) ∧
      ¬ ∃ text, f.report source "page.twig" = some text ∧ PointsAt source.toList 11 f.message "page.twig" text := by
  intro source f
  have hcs : source.toList = "render \"é\" ".toList ++ '$' :: " only".toList := by decide
  have hparts : source.toList = "render \"é\" ".toList ++ ['$'] ++ " only".toList := by decide
  have hplace : InText source.toList f.span := inText_of_append hparts
  have hrejected : Lexer.firstRejected 0 source.toList = some (['$'], ⟨12, 13⟩) := by decide +kernel
  refine ⟨parse_of_firstRejected hrejected, hplace, by decide, ?_⟩
  rintro ⟨text, hrender, hpoints⟩
  rw [← String.append_empty (s := text)] at hpoints
  have hcounted := countedRight_of_pointsAt hcs rfl (.inl rfl) hrender hpoints
  exact absurd hcounted.single (by decide)

end Inclusion
