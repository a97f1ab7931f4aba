import Inclusion.Proofs.Compiler.Reachable
import Inclusion.Proofs.Compiler.Shift
import Inclusion.Proofs.Grammar.Block
import Inclusion.Proofs.Template.Opening
import Inclusion.Proofs.Template.Scan
import Inclusion.Proofs.Token.Piece
/-!
# Compiling a template block by block

Compiling a template is compiling the text of each of its blocks on its own, one after another with one compiler,
and adding the start of the block to the places in the answer. The blocks lie apart in the template and the place of
a call is inside its block, from the opening of the block on, so the places of the calls lie apart, too. The tag that
made a block a directive is the tag that the compiler finds in it, so no tag is unknown.
-/

namespace Inclusion

/-! ### The place of a directive -/

namespace Directive

/-- The place of a directive in a block runs from the opening to the closing of the block. -/
theorem exists_span {tag : String} {offset : Nat} {r : List Char} {d : Directive}
    (h : Directive.parse tag offset ('{' :: '%' :: r) = .ok d) :
    ∃ body rest, '{' :: '%' :: r = body ++ rest ∧ d.span = ⟨offset, offset + byteLength body⟩ ∧
      ['{', '%'] <+: body ∧ ['%', '}'] <:+ body := by
  obtain ⟨-, s, hs, rfl⟩ := Directive.parse_eq_ok_iff.mp h
  generalize htext : '{' :: '%' :: r = text at hs ⊢
  have hpieces : Lexer.pieces text = ⟨.token .blockOpen, '{' :: '%' :: signOf r⟩ :: Lexer.pieces (afterSign r) := by
    rw [← htext, pieces_opening]
  have hopen : Lexer.tokens text = .blockOpen :: (Lexer.pieces (afterSign r)).filterMap Piece.token? := by
    rw [Lexer.tokens_eq_filterMap, hpieces]
    rfl
  obtain ⟨inner, -, hrest⟩ := s.exists_inner (hs.trans hopen)
  have hfirst : (Lexer.lexemes offset text)[0]?.map (·.span.start) = some offset := by
    rw [Lexer.lexemes, hpieces]
    rfl
  obtain ⟨l, hlast, hclose⟩ : ∃ l, (Lexer.lexemes offset text).getLast? = some l ∧ l.token = .blockClose := by
    have hmap := congrArg List.getLast? (Lexer.map_token_lexemes offset text)
    rw [List.getLast?_map, hopen, hrest, ← List.cons_append, ← List.cons_append, List.getLast?_concat] at hmap
    exact Option.map_eq_some_iff.mp hmap
  obtain ⟨before, p, after, heq, hkind, hspan⟩ := Lexer.exists_of_mem_lexemesFrom (List.mem_of_mem_getLast? hlast)
  have hsplit : text = (before ++ [p]).flatMap Piece.text ++ after.flatMap Piece.text := by
    rw [← Lexer.flatMap_text_pieces text, heq, ← List.flatMap_append, List.append_assoc, List.singleton_append]
  have hends : ['%', '}'] <:+ (before ++ [p]).flatMap Piece.text := by
    have hmem : p ∈ Lexer.pieces text := heq ▸ List.mem_append_right _ List.mem_cons_self
    rw [List.flatMap_append, List.flatMap_singleton]
    exact (Lexer.shaped_of_mem_pieces hmem).suffix_of_blockClose (hkind.trans (by rw [hclose])) |>.trans (List.suffix_append _ _)
  refine ⟨_, _, hsplit, ?_, ?_, hends⟩
  · rw [List.getLast?_eq_getElem?] at hlast
    show Directive.spanOf (Lexer.lexemes offset text) 0 (Lexer.lexemes offset text).length = _
    rw [spanOf, hfirst, hlast, Option.map_some, hspan]
    rfl
  · refine List.prefix_of_prefix_length_le ?_ ⟨_, hsplit.symm⟩ hends.length_le
    rw [← htext]
    exact ⟨r, rfl⟩

end Directive

/-! ### Block by block -/

namespace Compiler

variable {disk : Disk} {c c' : Compiler}

/-- The texts of the blocks compile, each on its own, one after another. The calls have their places in the
template. -/
inductive Compiles (disk : Disk) : List Template.Block → Compiler → List IncludeCall → Compiler → Prop
  | nil (c : Compiler) : Compiles disk [] c [] c
  | cons {b : Template.Block} {blocks : List Template.Block} {c c₁ c₂ : Compiler} {call : IncludeCall}
    {calls : List IncludeCall} (hcall : c.compileDirective disk (String.ofList b.text) = (.ok call, c₁))
    (hcalls : Compiles disk blocks c₁ calls c₂) : Compiles disk (b :: blocks) c (call.shift b.start :: calls) c₂

/-- The first block whose text does not compile on its own, after those before it, gives the error. -/
def Fails (disk : Disk) (blocks : List Template.Block) (c : Compiler) (e : CompileError) (c' : Compiler) : Prop :=
  ∃ before b after calls c₁ e₀, blocks = before ++ b :: after ∧ Compiles disk before c calls c₁ ∧
    c₁.compileDirective disk (String.ofList b.text) = (.error e₀, c') ∧ e = e₀.shift b.start

theorem compileAt_block (disk : Disk) (b : Template.Block) (c : Compiler) :
    c.compileAt disk b.start b.text = shiftAnswer b.start (c.compileDirective disk (String.ofList b.text)) := by
  rw [compileDirective, String.toList_ofList]
  exact compileAt_shift disk b.start b.text c

theorem compileBlocks_eq_ok_iff {blocks : List Template.Block} {calls : List IncludeCall} :
    c.compileBlocks disk blocks = (.ok calls, c') ↔ Compiles disk blocks c calls c' := by
  induction blocks generalizing c calls with
  | nil =>
    rw [compileBlocks]
    constructor
    · intro h
      cases h
      exact .nil _
    · intro h
      cases h
      rfl
  | cons b blocks ih =>
    rw [compileBlocks, compileAt_block]
    constructor
    · intro h
      cases hb : c.compileDirective disk (String.ofList b.text) with
      | mk answer c₁ =>
        rw [hb] at h
        cases answer with
        | error e => cases h
        | ok call =>
          dsimp only [shiftAnswer, shiftResult] at h
          split at h
          · next calls c₂ hcalls =>
            cases h
            exact .cons hb (ih.mp hcalls)
          · cases h
    · intro h
      cases h with
      | cons hcall hcalls =>
        rw [hcall]
        dsimp only [shiftAnswer, shiftResult]
        rw [ih.mpr hcalls]

theorem compileBlocks_eq_error_iff {blocks : List Template.Block} {e : CompileError} :
    c.compileBlocks disk blocks = (.error e, c') ↔ Fails disk blocks c e c' := by
  induction blocks generalizing c with
  | nil =>
    rw [compileBlocks]
    constructor
    · intro h
      cases h
    · rintro ⟨before, b, after, calls, c₁, e₀, heq, -⟩
      simp at heq
  | cons b blocks ih =>
    rw [compileBlocks, compileAt_block]
    constructor
    · intro h
      cases hb : c.compileDirective disk (String.ofList b.text) with
      | mk answer c₁ =>
        rw [hb] at h
        cases answer with
        | error e₀ =>
          cases h
          exact ⟨[], b, blocks, [], c, e₀, rfl, .nil c, hb, rfl⟩
        | ok call =>
          dsimp only [shiftAnswer, shiftResult] at h
          split at h
          · cases h
          · next e' c₂ herror =>
            cases h
            obtain ⟨before, b', after, calls, c₃, e₀, rfl, hbefore, hb', he⟩ := ih.mp herror
            exact ⟨b :: before, b', after, _, c₃, e₀, rfl, .cons hb hbefore, hb', he⟩
    · rintro ⟨before, b', after, calls, c₁, e₀, heq, hbefore, hb', rfl⟩
      cases hbefore with
      | nil =>
        cases heq
        rw [hb']
        rfl
      | cons hcall hcalls =>
        obtain ⟨rfl, rfl⟩ := List.cons.inj heq
        rw [hcall]
        dsimp only [shiftAnswer, shiftResult]
        rw [ih.mpr ⟨_, b', after, _, c₁, e₀, rfl, hcalls, hb', rfl⟩]

/-! ### No tag is unknown -/

theorem tags_resolve (disk : Disk) (d : Directive) (c : Compiler) : (c.resolve disk d).2.tags = c.tags := by
  rw [resolve]
  split
  · rfl
  · split
    · rfl
    · dsimp only
      split
      · rfl
      · split <;> rfl

theorem tags_compileAt (disk : Disk) (offset : Nat) (cs : List Char) (c : Compiler) :
    (c.compileAt disk offset cs).2.tags = c.tags := by
  rw [compileAt]
  dsimp only
  split
  · split
    · rfl
    · next d _ =>
      have hresolve := tags_resolve disk d c
      split
      · next heq => rwa [heq] at hresolve
      · next heq => rwa [heq] at hresolve
  · rfl

theorem ne_unknownTag_of_mem {offset : Nat} {cs : List Char} {e : CompileError}
    (h : c.compileAt disk offset cs = (.error e, c')) (htag : (leadingTag offset cs).1 ∈ c.tags) (tag : String)
    (span : Span) : e ≠ .unknownTag tag span := by
  rw [compileAt] at h
  dsimp only at h
  rw [if_pos (List.contains_iff_mem.mpr htag)] at h
  split at h
  · cases h
    simp
  · next d _ =>
    split at h
    · cases h
    · next e' c₁ hresolve =>
      cases h
      rw [resolve] at hresolve
      split at hresolve
      · cases hresolve
        simp
      · split at hresolve
        · cases hresolve
          simp
        · dsimp only at hresolve
          split at hresolve
          · cases hresolve
          · split at hresolve
            · cases hresolve
              simp
            · cases hresolve

/-- The place of the call, in the template, runs from the start of the block to the closing of a block in it. -/
def CallInBlock (template : List Char) (b : Template.Block) (call : IncludeCall) : Prop :=
  ∃ before body rest after, template = before ++ body ++ rest ++ after ∧ b.text = body ++ rest ∧
    b.start = byteLength before ∧ call.span = ⟨b.start, b.start + byteLength body⟩ ∧
    ['{', '%'] <+: body ∧ ['%', '}'] <:+ body

theorem callInBlock {tags : List String} {template : List Char} {b : Template.Block} (hb : b ∈ Template.blocks tags template)
    {call : IncludeCall} (h : c.compileAt disk b.start b.text = (.ok call, c')) : CallInBlock template b call := by
  obtain ⟨-, -, ⟨r, hr⟩, before, after, htemplate, hstart⟩ := Template.exists_of_mem_blocks hb
  obtain ⟨-, d, resolution, hparse, -, rfl⟩ := compileAt_eq_ok_iff.mp h
  rw [hr] at hparse
  obtain ⟨body, rest, hsplit, hspan, hopen, hclose⟩ := Directive.exists_span hparse
  refine ⟨before, body, rest, after, ?_, hr.trans hsplit, hstart, hspan, hopen, hclose⟩
  rw [htemplate, hr, hsplit, ← List.append_assoc]

theorem Compiles.forall₂ {tags : List String} {template : List Char} {blocks : List Template.Block}
    {calls : List IncludeCall} (h : Compiles disk blocks c calls c') (hblocks : ∀ b ∈ blocks, b ∈ Template.blocks tags template) :
    List.Forall₂ (CallInBlock template) blocks calls := by
  induction h with
  | nil => exact .nil
  | @cons b blocks c c₁ c₂ call calls hcall hcalls ih =>
    have hb := hblocks b List.mem_cons_self
    have hat : c.compileAt disk b.start b.text = (.ok (call.shift b.start), c₁) := by
      rw [compileAt_block, hcall]
      rfl
    exact .cons (callInBlock hb hat) (ih fun b' hb' => hblocks b' (List.mem_cons_of_mem b hb'))

theorem CallInBlock.bounds {template : List Char} {b : Template.Block} {call : IncludeCall}
    (h : CallInBlock template b call) : call.span.start = b.start ∧ b.start < call.span.stop ∧ call.span.stop ≤ b.span.stop := by
  obtain ⟨before, body, rest, after, -, htext, -, hspan, hopen, -⟩ := h
  have hlength := hopen.length_le
  have hbytes := length_le_byteLength body
  rw [hspan, Template.Block.span, htext, byteLength_append]
  simp only [List.length_cons, List.length_nil] at hlength
  refine ⟨rfl, ?_, ?_⟩ <;> dsimp only <;> omega

theorem exists_block_of_mem {template : List Char} {blocks : List Template.Block} {calls : List IncludeCall}
    (h : List.Forall₂ (CallInBlock template) blocks calls) {call : IncludeCall} (hcall : call ∈ calls) :
    ∃ b ∈ blocks, CallInBlock template b call := by
  induction h with
  | nil => cases hcall
  | @cons b first blocks calls hfirst hcalls ih =>
    cases List.mem_cons.mp hcall with
    | inl heq => exact ⟨b, List.mem_cons_self, heq ▸ hfirst⟩
    | inr hcall =>
      obtain ⟨b', hb', hin⟩ := ih hcall
      exact ⟨b', List.mem_cons_of_mem b hb', hin⟩

/-- Calls in blocks that lie apart lie apart. -/
theorem pairwise_calls {template : List Char} {blocks : List Template.Block} {calls : List IncludeCall}
    (h : List.Forall₂ (CallInBlock template) blocks calls) (hblocks : blocks.Pairwise fun a b => a.span.stop ≤ b.start) :
    calls.Pairwise fun a b => a.span.start < b.span.start ∧ a.span.stop ≤ b.span.start := by
  induction h with
  | nil => exact .nil
  | @cons b call blocks calls hcall hcalls ih =>
    obtain ⟨hlater, hblocks⟩ := List.pairwise_cons.mp hblocks
    refine List.pairwise_cons.mpr ⟨?_, ih hblocks⟩
    intro call' hcall'
    obtain ⟨b', hb', hin⟩ := exists_block_of_mem hcalls hcall'
    have hbounds := hcall.bounds
    have hbounds' := hin.bounds
    have hapart := hlater b' hb'
    omega

theorem Compiles.tags {blocks : List Template.Block} {calls : List IncludeCall} (h : Compiles disk blocks c calls c') :
    c'.tags = c.tags := by
  induction h with
  | nil => rfl
  | @cons b blocks c c₁ c₂ call calls hcall hcalls ih =>
    have htags := tags_compileAt disk 0 (String.ofList b.text).toList c
    rw [compileDirective] at hcall
    rw [hcall] at htags
    exact ih.trans htags

theorem Fails.ne_unknownTag {template : List Char} {e : CompileError} (h : Fails disk (Template.blocks c.tags template) c e c')
    (tag : String) (span : Span) : e ≠ .unknownTag tag span := by
  obtain ⟨before, b, after, calls, c₁, e₀, hblocks, hbefore, hb, rfl⟩ := h
  have hmem : b ∈ Template.blocks c.tags template := hblocks ▸ List.mem_append_right _ List.mem_cons_self
  obtain ⟨hword, htag, ⟨r, hr⟩, -⟩ := Template.exists_of_mem_blocks hmem
  have hleading : (leadingTag b.start b.text).1 ∈ c₁.tags := by
    rw [hr] at hword ⊢
    rwa [leadingTag_of_firstWord hword, hbefore.tags]
  have hat : c₁.compileAt disk b.start b.text = (.error (e₀.shift b.start), c') := by
    rw [compileAt_block, hb]
    rfl
  exact ne_unknownTag_of_mem hat hleading tag span

/-- Compiling a template gives calls exactly when its blocks compile each on its own, in order, and otherwise the error
of the first block that does not; no block after it is compiled. The calls are in their blocks, apart and in order, and
the error is never that a tag is unknown. -/
theorem compileTemplate_block_by_block (disk : Disk) (source : String) (c : Compiler) :
    let blocks := Template.blocks c.tags source.toList
    (∀ calls c', c.compileTemplate disk source = (.ok calls, c') ↔ Compiles disk blocks c calls c') ∧
      (∀ e c', c.compileTemplate disk source = (.error e, c') ↔ Fails disk blocks c e c') ∧
      (∀ calls c', Compiles disk blocks c calls c' → List.Forall₂ (CallInBlock source.toList) blocks calls ∧
        calls.Pairwise fun a b => a.span.start < b.span.start ∧ a.span.stop ≤ b.span.start) ∧
      ∀ e c', Fails disk blocks c e c' → ∀ tag span, e ≠ .unknownTag tag span := by
  refine ⟨?_, ?_, ?_, ?_⟩
  · intro calls c'
    exact compileBlocks_eq_ok_iff
  · intro e c'
    exact compileBlocks_eq_error_iff
  · intro calls c' h
    have hin := h.forall₂ fun b hb => hb
    exact ⟨hin, pairwise_calls hin (Template.pairwise_blocksFrom _ _ _)⟩
  · intro e c' h
    exact h.ne_unknownTag

end Compiler

end Inclusion
