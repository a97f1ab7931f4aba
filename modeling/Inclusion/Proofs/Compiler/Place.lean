import Inclusion.Proofs.Compiler.Template
import Inclusion.Proofs.Directive.Place
import Inclusion.Proofs.Template.Agreement
/-!
# Where an error of compiling is

Whatever goes wrong with a directive, the error has a place in its text: that of the tag, of the faulty characters or of
the whole directive. In a template the place is inside the first block that does not compile. Only a directive that
breaks off after a blank or a comment is placed backwards, and a block that is closed never breaks off.
-/

namespace Inclusion

open Grammar

/-! ### The place of the tag -/

theorem inText_leadingTag (cs : List Char) : InText cs (leadingTag 0 cs).2 := by
  have hplace {body : List Char} (h : body <:+ cs) : InText cs
      ⟨0 + (byteLength cs - byteLength body),
        0 + (byteLength cs - byteLength body) + byteLength (body.takeWhile isWordChar)⟩ := by
    obtain ⟨front, rfl⟩ := h
    have hfront : byteLength (front ++ body) - byteLength body = byteLength front := by
      rw [byteLength_append]
      omega
    have hsplit : front ++ body = front ++ body.takeWhile isWordChar ++ body.dropWhile isWordChar := by
      rw [List.append_assoc, List.takeWhile_append_dropWhile]
    rw [hfront, Nat.zero_add, ← byteLength_append]
    exact inText_of_append hsplit
  have htrim : trimStart cs <:+ cs := List.dropWhile_suffix isSpace
  have hrest (opening : List Char) {rest : List Char} (h : trimStart cs = opening ++ rest) : trimStart rest <:+ cs :=
    (List.dropWhile_suffix isSpace).trans (List.IsSuffix.trans ⟨opening, h.symm⟩ htrim)
  unfold leadingTag
  dsimp only
  apply hplace
  split
  · next heq => exact hrest ['{', '%', '-'] heq
  · next heq => exact hrest ['{', '%', '~'] heq
  · next heq => exact hrest ['{', '%'] heq
  · exact htrim

/-! ### The place of an error -/

/-- The error has a place in the text, and if it is that the text is malformed, it has one fault. -/
structure ErrorAt (cs : List Char) (e : CompileError) (s : Span) : Prop where
  span? : e.span? = some s
  start : OnBoundary cs s.start
  stop : OnBoundary cs s.stop
  faults : ∀ faults, e = .malformed faults → ∃ f, faults = [f]

namespace Compiler

variable {disk : Disk} {c c' : Compiler} {cs : List Char} {e : CompileError}

theorem span_of_reference {d : Directive} {f : Fault} (h : d.reference = .error f) : f.span = d.component.span := by
  unfold Directive.reference at h
  split at h
  · cases h
    rfl
  · split at h <;> cases h
    rfl

theorem errorAt_of_resolve {d : Directive} {tag : String} (hparse : Directive.parse tag 0 cs = .ok d)
    (h : c.resolve disk d = (.error e, c')) : ∃ s, ErrorAt cs e s ∧ s.start ≤ s.stop := by
  obtain ⟨hspan, hcomponent⟩ := Directive.inText_of_parse hparse
  rw [resolve] at h
  split at h
  · next f hreference =>
    cases h
    have hplace := span_of_reference hreference
    refine ⟨_, ⟨congrArg some hplace, hcomponent.start, hcomponent.stop, ?_⟩, hcomponent.start_le_stop⟩
    rintro faults ⟨⟩
    exact ⟨f, rfl⟩
  · split at h
    · cases h
      exact ⟨_, ⟨rfl, hspan.start, hspan.stop, by simp⟩, hspan.start_le_stop⟩
    · dsimp only at h
      split at h
      · cases h
      · split at h
        · cases h
          exact ⟨_, ⟨rfl, hspan.start, hspan.stop, by simp⟩, hspan.start_le_stop⟩
        · cases h

/-- The place of an error runs forward, unless the tag is known and the directive breaks off. -/
theorem place_of_compileAt_error (h : c.compileAt disk 0 cs = (.error e, c')) :
    ∃ s, ErrorAt cs e s ∧ (s.start ≤ s.stop ↔
      ¬ ((leadingTag 0 cs).1 ∈ c.tags ∧ Directive.BreaksOff (leadingTag 0 cs).1 cs)) := by
  rw [compileAt] at h
  dsimp only at h
  split at h
  · next htag =>
    have htag := List.contains_iff_mem.mp htag
    rw [and_iff_right htag]
    split at h
    · next f hparse =>
      cases h
      obtain ⟨hstart, hstop, hforward⟩ := Directive.place_of_parse_error hparse
      refine ⟨f.span, ⟨rfl, hstart, hstop, ?_⟩, hforward⟩
      rintro faults ⟨⟩
      exact ⟨f, rfl⟩
    · next d hparse =>
      split at h
      · cases h
      · next e' c₁ hresolve =>
        cases h
        obtain ⟨s, hs, hforward⟩ := errorAt_of_resolve hparse hresolve
        refine ⟨s, hs, iff_of_true hforward fun hbreaks => hbreaks.incomplete ?_⟩
        obtain ⟨-, sentence, hsentence, -⟩ := Directive.parse_eq_ok_iff.mp hparse
        exact ⟨sentence, hsentence⟩
  · next htag =>
    cases h
    have hplace := inText_leadingTag cs
    refine ⟨_, ⟨rfl, hplace.start, hplace.stop, by simp⟩, iff_of_true hplace.start_le_stop ?_⟩
    rintro ⟨hmem, -⟩
    exact htag (List.contains_iff_mem.mpr hmem)

end Compiler

/-! ### The place in a template -/

/-- In a longer text, the error has its place shifted by what stands before. -/
theorem ErrorAt.shift {cs : List Char} {e : CompileError} {s : Span} (h : ErrorAt cs e s) (before after : List Char) :
    ErrorAt (before ++ cs ++ after) (e.shift (byteLength before)) (s.shift (byteLength before)) where
  span? := by
    have hspan := h.span?
    cases e with
    | malformed faults =>
      obtain ⟨f, rfl⟩ := h.faults faults rfl
      cases hspan
      rfl
    | catalog e span =>
      cases hspan
      rfl
    | config e span =>
      cases hspan
      rfl
    | unknownTag tag span =>
      cases hspan
      rfl
  start := h.start.within before after
  stop := h.stop.within before after
  faults := by
    intro faults hfaults
    cases e with
    | malformed faults₀ =>
      obtain ⟨f, rfl⟩ := h.faults faults₀ rfl
      cases hfaults
      exact ⟨_, rfl⟩
    | _ => cases hfaults

/-- A block that is closed does not break off. -/
theorem Directive.BreaksOff.not_closed {tag : String} {cs : List Char} (h : BreaksOff tag cs) : ¬ ['%', '}'] <:+ cs := by
  intro hclose
  obtain ⟨p, hp, hkind⟩ := h.skipped
  exact kind_ne_skipped_of_closed hclose p hp hkind

namespace Compiler

/-- Every error of compiling a directive has a place in its text, and every error of compiling a template one in the
first block that does not compile, the blocks before it having compiled. The place begins and ends between characters,
and a malformed text has one fault. The place runs forward, except that it runs backwards for a text that begins like a
directive and breaks off after a blank or a comment; a block that is closed is no such text. -/
theorem place_of_error (disk : Disk) (source : String) (c : Compiler) :
    let leading := (leadingTag 0 source.toList).1
    (∀ e c', c.compileDirective disk source = (.error e, c') → ∃ s, ErrorAt source.toList e s ∧
        (s.start ≤ s.stop ↔ ¬ (leading ∈ c.tags ∧ Directive.BreaksOff leading source.toList))) ∧
      (∀ e c', c.compileTemplate disk source = (.error e, c') → ∃ before b after calls c₁ s,
        Template.blocks c.tags source.toList = before ++ b :: after ∧ Compiles disk before c calls c₁ ∧
        (∃ e₀, c₁.compileDirective disk (String.ofList b.text) = (.error e₀, c')) ∧
        ErrorAt source.toList e s ∧ b.start ≤ s.start ∧ s.start ≤ b.span.stop ∧ b.start ≤ s.stop ∧ s.stop ≤ b.span.stop ∧
        (s.start ≤ s.stop ↔ ¬ Directive.BreaksOff b.tag b.text)) ∧
      ∀ tag text, ['%', '}'] <:+ text → ¬ Directive.BreaksOff tag text := by
  refine ⟨fun e c' h => place_of_compileAt_error h, fun e c' h => ?_, fun tag text hclose h => h.not_closed hclose⟩
  obtain ⟨before, b, after, calls, c₁, e₀, hblocks, hbefore, hb, rfl⟩ := compileBlocks_eq_error_iff.mp h
  have hmem : b ∈ Template.blocks c.tags source.toList := hblocks ▸ List.mem_append_right _ List.mem_cons_self
  obtain ⟨hword, htag, ⟨r, hr⟩, front, back, hsource, hstart⟩ := Template.exists_of_mem_blocks hmem
  have hleading : (leadingTag 0 b.text).1 = b.tag := by
    rw [hr] at hword ⊢
    exact leadingTag_of_firstWord hword 0
  have hat := hb
  rw [compileDirective, String.toList_ofList] at hat
  obtain ⟨s, hs, hforward⟩ := place_of_compileAt_error hat
  rw [hleading, hbefore.tags, and_iff_right htag] at hforward
  have hshift := hs.shift front back
  rw [← hsource, ← hstart] at hshift
  have hstartle := hs.start.le
  have hstople := hs.stop.le
  refine ⟨before, b, after, calls, c₁, s.shift b.start, hblocks, hbefore, ⟨e₀, hb⟩, hshift, ?_, ?_, ?_, ?_, ?_⟩
  · exact Nat.le_add_left _ _
  · dsimp only [Span.shift, Template.Block.span]
    omega
  · exact Nat.le_add_left _ _
  · dsimp only [Span.shift, Template.Block.span]
    omega
  · rw [← hforward]
    exact Nat.add_le_add_iff_right

/-- The template `{% render ` is one block, and the place of its error runs from its end back to the end of the tag. -/
theorem compileTemplate_trailing_blank :
    let disk : Disk := ⟨.directory [], []⟩
    let c := new (.fixed []) {}
    let source := "\x7b% render "
    Template.blocks c.tags source.toList = [⟨"render", source.toList, 0⟩] ∧
      ∃ e s, c.compileTemplate disk source = (.error e, c) ∧ e.span? = some s ∧ s = ⟨10, 9⟩ ∧ ¬ s.start ≤ s.stop := by
  intro disk c source
  have hblocks : Template.blocks c.tags source.toList = [⟨"render", source.toList, 0⟩] := by decide +kernel
  have haccepted : Lexer.firstRejected 0 source.toList = none := by decide +kernel
  have hlexemes : Lexer.lexemes 0 source.toList = [⟨.blockOpen, ⟨0, 2⟩⟩, ⟨.ident "render", ⟨3, 9⟩⟩] := by decide +kernel
  have hlength : byteLength source.toList = 10 := by decide +kernel
  have hparse : Directive.parse "render" 0 source.toList =
      .error ⟨.unexpected none Expr.Reader.operandExpected, ⟨10, 9⟩⟩ := by
    rw [Directive.parse, Directive.scan_eq_ok haccepted hlexemes, hlength]
    rfl
  have hcompile : c.compileTemplate disk source =
      (.error (.malformed [⟨.unexpected none Expr.Reader.operandExpected, ⟨10, 9⟩⟩]), c) := by
    have hleading : (leadingTag 0 source.toList).1 = "render" := by decide +kernel
    have hat : c.compileAt disk 0 source.toList =
        (.error (.malformed [⟨.unexpected none Expr.Reader.operandExpected, ⟨10, 9⟩⟩]), c) := by
      rw [compileAt]
      dsimp only
      rw [hleading, hparse]
      rfl
    rw [compileTemplate, hblocks, compileBlocks, hat]
  exact ⟨hblocks, _, _, hcompile, rfl, rfl, by decide⟩

end Compiler

end Inclusion
