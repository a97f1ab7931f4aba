import Inclusion.CommandLine
import Inclusion.Proofs.Compiler.Place
import Inclusion.Proofs.Compiler.Run
import Inclusion.Proofs.Report.Place
import Mathlib.Data.List.Sort
/-!
# What a command prints

A command prints its result as a whole or nothing at all. `Prints` says what the result is, in terms of what the command
is given: the settings, the calling scope, the template, the calls that it compiles to and their variables. A command
that has no result fails, with a message and without output. The one exception is an error that cannot be reported, since
its place runs backwards: the command breaks down when it draws the report, also without output.
-/

namespace Inclusion

open Compiler (Compiles renderTag)

/-! ### The search -/

theorem Settings.roots_loader (s : Settings) : s.loader.roots s.ns = s.roots := by
  have hfold (roots : List Path) (l : Loader) :
      (roots.foldl (fun loader root => loader.add s.ns root) l).roots s.ns = l.roots s.ns ++ roots := by
    induction roots generalizing l with
    | nil => exact (List.append_nil _).symm
    | cons root rest ih => rw [List.foldl_cons, ih, Loader.roots_add, if_pos rfl, List.append_assoc, List.singleton_append]
  exact hfold s.roots []

theorem Compiler.getIndex_ofSettings (s : Settings) (disk : Disk) :
    ((ofSettings s).catalog.getIndex disk).1 = Index.build s disk s.roots := by
  rw [ofSettings, getIndex_new, SearchPaths.roots, Settings.roots_loader]

/-- The names of the components in an index, each once and in order. -/
structure Lists (index : Index) (names : List String) : Prop where
  sorted : names.Pairwise (· < ·)
  mem_iff : ∀ name, name ∈ names ↔ (Fields.get? name index).isSome

theorem lists_iff {index : Index} (h : (Fields.keys index).Nodup) {names : List String} :
    Lists index names ↔ names = (Fields.keys index).mergeSort (· ≤ ·) := by
  have hsorted : ((Fields.keys index).mergeSort (· ≤ ·)).Pairwise (· < ·) :=
    pairwise_mergeSort (f := fun name => name) (by rwa [List.map_id'])
  have hmem (name : String) : name ∈ (Fields.keys index).mergeSort (· ≤ ·) ↔ (Fields.get? name index).isSome := by
    rw [List.mem_mergeSort, ← not_iff_not, ← Fields.get?_eq_none_iff]
    simp
  constructor
  · rintro ⟨hnames, hmem'⟩
    exact hnames.eq_of_mem_iff hsorted fun name => (hmem' name).trans (hmem name).symm
  · rintro rfl
    exact ⟨hsorted, hmem⟩

/-! ### Errors that cannot be reported -/

/-- An error cannot be reported if its place runs backwards, wherever its text begins. -/
theorem CompileError.report_eq_none_iff {cs : List Char} {e : CompileError} {s : Span} (h : ErrorAt cs e s) (n : Nat)
    (source file : String) : (e.shift n).report source file = none ↔ s.stop < s.start := by
  have hshift : (s.shift n).stop < (s.shift n).start ↔ s.stop < s.start := Nat.add_lt_add_iff_right
  have hspan := h.span?
  rw [← hshift]
  cases e with
  | malformed faults =>
    obtain ⟨f, rfl⟩ := h.faults faults rfl
    obtain rfl : f.span = s := Option.some.inj hspan
    have hreport : (f.shift n).report source file = none ↔ (f.span.shift n).stop < (f.span.shift n).start :=
      Report.render_eq_none_iff
    rw [← hreport, CompileError.shift, List.map_singleton, CompileError.report, Option.map_eq_none_iff, List.mapM_cons]
    cases (f.shift n).report source file <;> simp
  | catalog e span =>
    obtain rfl : span = some s := hspan
    exact Report.render_eq_none_iff
  | config e span =>
    obtain rfl : span = some s := hspan
    exact Report.render_eq_none_iff
  | unknownTag tag span =>
    obtain rfl : span = s := Option.some.inj hspan
    exact Report.render_eq_none_iff

namespace Compiler

/-- The first block of a template that does not compile begins like a directive and breaks off after a blank or a
comment. -/
def StopsShort (disk : Disk) (source : String) (c : Compiler) : Prop :=
  ∃ before b after calls c₁, Template.blocks c.tags source.toList = before ++ b :: after ∧
    Compiles disk before c calls c₁ ∧ Directive.BreaksOff b.tag b.text

variable {disk : Disk} {source : String} {c c' : Compiler} {e : CompileError}

/-- The calls of a template lie apart, in the order of their places. -/
theorem pairwise_of_compileTemplate {calls : List IncludeCall} (h : (c.compileTemplate disk source).1 = .ok calls) :
    calls.Pairwise fun a b => a.span.start < b.span.start ∧ a.span.stop ≤ b.span.start := by
  have hcompiles : Compiles disk (Template.blocks c.tags source.toList) c calls (c.compileTemplate disk source).2 :=
    compileBlocks_eq_ok_iff.mp (Prod.ext h rfl)
  exact pairwise_calls (hcompiles.forall₂ fun b hb => hb) (Template.pairwise_blocksFrom _ _ _)

theorem leadingTag_of_mem_blocks {tags : List String} {cs : List Char} {b : Template.Block} (h : b ∈ Template.blocks tags cs) :
    (leadingTag 0 b.text).1 = b.tag := by
  obtain ⟨hword, -, ⟨r, hr⟩, -⟩ := Template.exists_of_mem_blocks h
  rw [hr] at hword ⊢
  exact leadingTag_of_firstWord hword 0

/-- What breaks off does not compile. -/
theorem compileDirective_of_breaksOff {b : Template.Block} (hleading : (leadingTag 0 b.text).1 = b.tag)
    (h : Directive.BreaksOff b.tag b.text) (disk : Disk) (c : Compiler) :
    ∃ e c', c.compileDirective disk (String.ofList b.text) = (.error e, c') := by
  cases hb : c.compileDirective disk (String.ofList b.text) with
  | mk answer c' =>
    cases answer with
    | error e => exact ⟨e, c', rfl⟩
    | ok call =>
      rw [compileDirective, String.toList_ofList] at hb
      obtain ⟨-, d, r, hparse, -⟩ := compileAt_eq_ok_iff.mp hb
      rw [hleading] at hparse
      obtain ⟨-, s, hs, -⟩ := Directive.parse_eq_ok_iff.mp hparse
      exact absurd ⟨s, hs⟩ h.incomplete

theorem exists_report_eq_none_iff (file : String) :
    (∃ e c', c.compileTemplate disk source = (.error e, c') ∧ e.report source file = none) ↔ c.StopsShort disk source := by
  constructor
  · rintro ⟨e, c', h, hreport⟩
    obtain ⟨before, b, after, calls, c₁, e₀, hblocks, hbefore, hb, rfl⟩ := compileBlocks_eq_error_iff.mp h
    refine ⟨before, b, after, calls, c₁, hblocks, hbefore, ?_⟩
    have hmem : b ∈ Template.blocks c.tags source.toList := hblocks ▸ List.mem_append_right _ List.mem_cons_self
    rw [compileDirective, String.toList_ofList] at hb
    obtain ⟨s, hs, hforward⟩ := place_of_compileAt_error hb
    rw [CompileError.report_eq_none_iff hs] at hreport
    rw [leadingTag_of_mem_blocks hmem] at hforward
    exact (Classical.not_not.mp fun hbreaks => Nat.not_le.mpr hreport (hforward.mpr hbreaks)).2
  · rintro ⟨before, b, after, calls, c₁, hblocks, hbefore, hbreaks⟩
    have hmem : b ∈ Template.blocks c.tags source.toList := hblocks ▸ List.mem_append_right _ List.mem_cons_self
    have hleading := leadingTag_of_mem_blocks hmem
    obtain ⟨-, htag, -⟩ := Template.exists_of_mem_blocks hmem
    obtain ⟨e₀, c', hb⟩ := compileDirective_of_breaksOff hleading hbreaks disk c₁
    refine ⟨_, c', compileBlocks_eq_error_iff.mpr ⟨before, b, after, calls, c₁, e₀, hblocks, hbefore, hb, rfl⟩, ?_⟩
    rw [compileDirective, String.toList_ofList] at hb
    obtain ⟨s, hs, hforward⟩ := place_of_compileAt_error hb
    rw [hleading, hbefore.tags] at hforward
    rw [CompileError.report_eq_none_iff hs, ← Nat.not_le, hforward, Classical.not_not]
    exact ⟨htag, hbreaks⟩

end Compiler

/-! ### What a command is given -/

namespace CommandLine

variable {disk : Disk} {stdin : Option String} {o : Options}

/-- The settings of a command are those in its config file, if it has one, in its namespace, if it has one, and with its
roots after those in the file. -/
def Configured (disk : Disk) (o : Options) (s : Settings) : Prop :=
  ∃ base : Settings, (∀ file ∈ o.config, Settings.read disk file = .ok base) ∧ (o.config = none → base = {}) ∧
    s = { base with ns := o.ns.getD base.ns, roots := base.roots ++ o.roots }

/-- The file holds a scope: a map, or nothing. -/
inductive ScopeIn (disk : Disk) (file : Path) : Fields Value → Prop
  | map {text : String} {fields : Fields Value} (hread : disk.read file = .ok text)
    (hvalue : scopeValue file text = .ok (.map fields)) : ScopeIn disk file fields
  | null {text : String} (hread : disk.read file = .ok text) (hvalue : scopeValue file text = .ok (.scalar .null)) :
    ScopeIn disk file []

/-- The calling scope of a command, if it has one. -/
inductive Scoped (disk : Disk) : Option Path → Option (Fields Value) → Prop
  | without : Scoped disk none none
  | within {file : Path} {fields : Fields Value} (h : ScopeIn disk file fields) : Scoped disk (some file) (some fields)

/-- The template of a command, from its file or from the standard input. -/
inductive Reads (disk : Disk) (stdin : Option String) : Option Path → String → Prop
  | file {file : Path} {source : String} (h : disk.read file = .ok source) : Reads disk stdin (some file) source
  | input {source : String} (h : stdin = some source) : Reads disk stdin none source

theorem settings_eq_ok_iff {s : Settings} : settings disk o = .ok s ↔ Configured disk o s := by
  rw [settings, Configured]
  cases o.config with
  | none =>
    constructor
    · intro h
      exact ⟨{}, by simp, fun _ => rfl, (Except.ok.inj h).symm⟩
    · rintro ⟨base, -, hbase, rfl⟩
      obtain rfl := hbase rfl
      rfl
  | some file =>
    dsimp only
    constructor
    · intro h
      cases hread : Settings.read disk file with
      | error e =>
        rw [hread] at h
        cases h
      | ok base =>
        rw [hread] at h
        refine ⟨base, ?_, nofun, (Except.ok.inj h).symm⟩
        rintro file' hfile
        obtain rfl := Option.some.inj hfile
        exact hread
    · rintro ⟨base, hread, -, rfl⟩
      rw [hread file rfl]
      rfl

theorem readScope_eq_ok_iff {file : Path} {fields : Fields Value} :
    readScope disk file = .ok fields ↔ ScopeIn disk file fields := by
  rw [readScope]
  constructor
  · intro h
    split at h
    · cases h
    · next hread =>
      split at h
      · cases h
      · next hvalue =>
        cases h
        exact .map hread hvalue
      · next hvalue =>
        cases h
        exact .null hread hvalue
      · cases h
  · rintro (⟨hread, hvalue⟩ | ⟨hread, hvalue⟩)
    · simp only [hread, hvalue]
    · simp only [hread, hvalue]

theorem scope_eq_ok_iff {given : Option (Fields Value)} : scope disk o = .ok given ↔ Scoped disk o.scope given := by
  rw [scope]
  cases o.scope with
  | none =>
    constructor
    · intro h
      cases h
      exact .without
    · rintro ⟨⟩
      rfl
  | some file =>
    dsimp only
    constructor
    · intro h
      split at h
      · next hscope =>
        cases h
        exact .within (readScope_eq_ok_iff.mp hscope)
      · cases h
    · rintro ⟨⟩
      next h => rw [readScope_eq_ok_iff.mpr h]

theorem template_eq_ok_iff {source : String} :
    (∃ name, template disk stdin o = .ok (source, name)) ↔ Reads disk stdin o.input source := by
  unfold template
  cases o.input with
  | none =>
    dsimp only
    constructor
    · rintro ⟨name, h⟩
      split at h
      · cases h
        exact .input rfl
      · cases h
    · rintro ⟨⟩
      next h => exact ⟨_, by rw [h]⟩
  | some file =>
    dsimp only
    constructor
    · rintro ⟨name, h⟩
      split at h
      · next hread =>
        cases h
        exact .file hread
      · cases h
    · rintro ⟨⟩
      next h => exact ⟨_, by rw [h]⟩

/-! ### What a command prints -/

/-- What is shown of a call: the call and, in a scope, its variables. -/
inductive Shows (call : IncludeCall) : Option (Fields Value) → Value → Prop
  | call : Shows call none (.map call.fields)
  | evaluated {fields : Fields Value} {v : Value} (h : call.evaluate fields = .ok v) :
    Shows call (some fields) (.map (call.fields ++ [("evaluated", v)]))

theorem entry_eq_ok_iff {given : Option (Fields Value)} {call : IncludeCall} {v : Value} :
    entry given call = .ok v ↔ Shows call given v := by
  unfold entry
  cases given with
  | none =>
    dsimp only
    constructor
    · intro h
      cases h
      exact .call
    · rintro ⟨⟩
      rfl
  | some fields =>
    dsimp only
    constructor
    · intro h
      split at h
      · next hv =>
        cases h
        exact .evaluated hv
      · cases h
    · rintro ⟨⟩
      next hv => rw [hv]

theorem mapM_entry_eq_ok_iff {given : Option (Fields Value)} {calls : List IncludeCall} {entries : List Value} :
    calls.mapM (entry given) = .ok entries ↔ List.Forall₂ (Shows · given) calls entries := by
  induction calls generalizing entries with
  | nil =>
    rw [List.mapM_nil, List.forall₂_nil_left_iff]
    exact ⟨fun h => (Except.ok.inj h).symm, fun h => h ▸ rfl⟩
  | cons call calls ih =>
    rw [List.mapM_cons, List.forall₂_cons_left_iff]
    constructor
    · intro h
      cases hcall : entry given call with
      | error message =>
        rw [hcall] at h
        cases h
      | ok v =>
        cases hcalls : calls.mapM (entry given) with
        | error message =>
          rw [hcall, hcalls] at h
          cases h
        | ok rest =>
          rw [hcall, hcalls] at h
          cases h
          exact ⟨v, rest, entry_eq_ok_iff.mp hcall, ih.mp hcalls, rfl⟩
    · rintro ⟨v, rest, hcall, hcalls, rfl⟩
      rw [entry_eq_ok_iff.mpr hcall, ih.mpr hcalls]
      rfl

/-- The whole result of a command, as it is printed. The calls are those of the template, one after another. -/
inductive Prints (disk : Disk) (stdin : Option String) (o : Options) : String → Prop
  | names {s : Settings} {index : Index} {names : List String} (hlist : o.list = true) (hs : Configured disk o s)
    (hindex : Index.build s disk s.roots = .ok index) (hnames : Lists index names) :
    Prints disk stdin o (String.join (names.map (· ++ "\n")))
  | calls {s : Settings} {given : Option (Fields Value)} {source : String} {calls : List IncludeCall} {entries : List Value}
    (hlist : o.list = false) (hs : Configured disk o s) (hscope : Scoped disk o.scope given)
    (hsource : Reads disk stdin o.input source) (hcalls : ((Compiler.ofSettings s).compileTemplate disk source).1 = .ok calls)
    (horder : calls.Pairwise fun a b => a.span.start < b.span.start ∧ a.span.stop ≤ b.span.start)
    (hentries : List.Forall₂ (Shows · given) calls entries) :
    Prints disk stdin o ((Value.list entries).toJson ++ "\n")

/-- The command has a template and all that is needed to compile it, but the template stops short. -/
inductive BreaksDown (disk : Disk) (stdin : Option String) (o : Options) : Prop
  | intro {s : Settings} {given : Option (Fields Value)} {source : String} (hlist : o.list = false) (hs : Configured disk o s)
    (hscope : Scoped disk o.scope given) (hsource : Reads disk stdin o.input source)
    (hstops : (Compiler.ofSettings s).StopsShort disk source)

theorem list_eq (disk : Disk) (s : Settings) : list disk s = match Index.build s disk s.roots with
    | .ok index => .success (String.join (((Fields.keys index).mergeSort (· ≤ ·)).map (· ++ "\n")))
    | .error e => .failure ("Error: " ++ e.message) := by
  rw [list, Catalog.names_eq, Compiler.getIndex_ofSettings]
  cases Index.build s disk s.roots <;> rfl

theorem list_eq_success_iff {s : Settings} {output : String} : list disk s = .success output ↔
    ∃ index names, Index.build s disk s.roots = .ok index ∧ Lists index names ∧
      output = String.join (names.map (· ++ "\n")) := by
  rw [list_eq]
  cases hindex : Index.build s disk s.roots with
  | error e => simp
  | ok index =>
    have hnodup : (Fields.keys index).Nodup :=
      (Index.all_of_build (P := fun _ => True) (fun _ _ _ _ => trivial) hindex).nodup
    constructor
    · intro h
      exact ⟨index, _, rfl, (lists_iff hnodup).mpr rfl, (Outcome.success.inj h).symm⟩
    · rintro ⟨index', names, hindex', hnames, rfl⟩
      cases hindex'
      rw [(lists_iff hnodup).mp hnames]

variable {s : Settings} {given : Option (Fields Value)} {source name : String}

theorem compile_of_error {e : CompileError} (h : ((Compiler.ofSettings s).compileTemplate disk source).1 = .error e) :
    compile disk s given source name = (e.report source name).elim .aborted .failure := by
  rw [compile, compileTemplate, h]
  dsimp only
  cases e.report source name <;> rfl

theorem compile_of_ok {calls : List IncludeCall} (h : ((Compiler.ofSettings s).compileTemplate disk source).1 = .ok calls) :
    compile disk s given source name = match calls.mapM (entry given) with
      | .ok entries => .success ((Value.list entries).toJson ++ "\n")
      | .error message => .failure message := by
  cases hentries : calls.mapM (entry given) <;> simp only [compile, compileTemplate, h, hentries]

theorem compile_eq_success_iff {output : String} : compile disk s given source name = .success output ↔
    ∃ calls entries, ((Compiler.ofSettings s).compileTemplate disk source).1 = .ok calls ∧
      List.Forall₂ (Shows · given) calls entries ∧ output = (Value.list entries).toJson ++ "\n" := by
  cases hcalls : ((Compiler.ofSettings s).compileTemplate disk source).1 with
  | error e =>
    rw [compile_of_error hcalls]
    cases e.report source name <;> simp
  | ok calls =>
    rw [compile_of_ok hcalls]
    constructor
    · intro h
      split at h
      · next entries hentries => exact ⟨calls, entries, rfl, mapM_entry_eq_ok_iff.mp hentries, (Outcome.success.inj h).symm⟩
      · cases h
    · rintro ⟨calls', entries, hcalls', hentries, rfl⟩
      cases hcalls'
      rw [mapM_entry_eq_ok_iff.mpr hentries]

theorem compile_eq_aborted_iff :
    compile disk s given source name = .aborted ↔ (Compiler.ofSettings s).StopsShort disk source := by
  rw [← Compiler.exists_report_eq_none_iff name]
  cases hcalls : (Compiler.ofSettings s).compileTemplate disk source with
  | mk answer c' =>
    have hanswer := congrArg Prod.fst hcalls
    cases answer with
    | error e =>
      rw [compile_of_error hanswer]
      cases hreport : e.report source name with
      | none => exact iff_of_true rfl ⟨e, c', rfl, hreport⟩
      | some report =>
        refine iff_of_false (by simp) ?_
        rintro ⟨e', c'', heq, hreport'⟩
        cases heq
        rw [hreport] at hreport'
        cases hreport'
    | ok calls =>
      rw [compile_of_ok hanswer]
      refine iff_of_false ?_ ?_
      · split <;> simp
      · rintro ⟨e', c'', heq, -⟩
        cases heq

/-- Whatever is not a failure comes from listing or from compiling, with all that is needed for it. -/
theorem execute_eq_iff {outcome : Outcome} (hfailure : ∀ message, outcome ≠ .failure message) :
    execute disk stdin o = outcome ↔ ∃ s, Configured disk o s ∧
      (o.list = true ∧ list disk s = outcome ∨ o.list = false ∧ ∃ given source name, Scoped disk o.scope given ∧
        template disk stdin o = .ok (source, name) ∧ compile disk s given source name = outcome) := by
  rw [execute]
  constructor
  · intro h
    split at h
    · exact absurd h.symm (hfailure _)
    · next s hs =>
      refine ⟨s, settings_eq_ok_iff.mp hs, ?_⟩
      split at h
      · next hlist => exact .inl ⟨hlist, h⟩
      · next hlist =>
        refine .inr ⟨Bool.not_eq_true _ ▸ hlist, ?_⟩
        split at h
        · exact absurd h.symm (hfailure _)
        · next given hgiven =>
          split at h
          · exact absurd h.symm (hfailure _)
          · next source name htemplate => exact ⟨given, source, name, scope_eq_ok_iff.mp hgiven, htemplate, h⟩
  · rintro ⟨s, hs, ⟨hlist, h⟩ | ⟨hlist, given, source, name, hgiven, htemplate, h⟩⟩
    · rw [settings_eq_ok_iff.mpr hs]
      dsimp only
      rw [if_pos hlist, h]
    · rw [settings_eq_ok_iff.mpr hs]
      dsimp only
      rw [if_neg (by simp [hlist]), scope_eq_ok_iff.mpr hgiven]
      dsimp only
      rw [htemplate]
      exact h

theorem execute_eq_success_iff {output : String} : execute disk stdin o = .success output ↔ Prints disk stdin o output := by
  rw [execute_eq_iff (by simp)]
  constructor
  · rintro ⟨s, hs, ⟨hlist, h⟩ | ⟨hlist, given, source, name, hgiven, htemplate, h⟩⟩
    · obtain ⟨index, names, hindex, hnames, rfl⟩ := list_eq_success_iff.mp h
      exact .names hlist hs hindex hnames
    · obtain ⟨calls, entries, hcalls, hentries, rfl⟩ := compile_eq_success_iff.mp h
      have hsource := template_eq_ok_iff.mp ⟨name, htemplate⟩
      exact .calls hlist hs hgiven hsource hcalls (Compiler.pairwise_of_compileTemplate hcalls) hentries
  · intro h
    cases h with
    | names hlist hs hindex hnames =>
      exact ⟨_, hs, .inl ⟨hlist, list_eq_success_iff.mpr ⟨_, _, hindex, hnames, rfl⟩⟩⟩
    | calls hlist hs hscope hsource hcalls horder hentries =>
      obtain ⟨name, htemplate⟩ := template_eq_ok_iff.mpr hsource
      refine ⟨_, hs, .inr ⟨hlist, _, _, name, hscope, htemplate, ?_⟩⟩
      exact compile_eq_success_iff.mpr ⟨_, _, hcalls, hentries, rfl⟩

theorem execute_eq_aborted_iff : execute disk stdin o = .aborted ↔ BreaksDown disk stdin o := by
  rw [execute_eq_iff (by simp)]
  constructor
  · rintro ⟨s, hs, ⟨hlist, h⟩ | ⟨hlist, given, source, name, hgiven, htemplate, h⟩⟩
    · rw [list_eq] at h
      split at h <;> cases h
    · exact .intro hlist hs hgiven (template_eq_ok_iff.mp ⟨name, htemplate⟩) (compile_eq_aborted_iff.mp h)
  · rintro ⟨hlist, hs, hscope, hsource, hstops⟩
    obtain ⟨name, htemplate⟩ := template_eq_ok_iff.mpr hsource
    exact ⟨_, hs, .inr ⟨hlist, _, _, name, hscope, htemplate, compile_eq_aborted_iff.mpr hstops⟩⟩

/-- How a command that runs can end. -/
inductive Outcome.Ran : Outcome → Prop
  | success (output : String) : Ran (.success output)
  | failure (message : String) : Ran (.failure message)
  | aborted : Ran .aborted

theorem list_ran (disk : Disk) (s : Settings) : (list disk s).Ran := by
  rw [list_eq]
  split
  · exact .success _
  · exact .failure _

theorem compile_ran (disk : Disk) (s : Settings) (given : Option (Fields Value)) (source name : String) :
    (compile disk s given source name).Ran := by
  rw [compile]
  split
  · split
    · exact .failure _
    · exact .aborted
  · split
    · exact .success _
    · exact .failure _

theorem execute_ran (disk : Disk) (stdin : Option String) (o : Options) : (execute disk stdin o).Ran := by
  rw [execute]
  split
  · exact .failure _
  · split
    · exact list_ran _ _
    · split
      · exact .failure _
      · split
        · exact .failure _
        · exact compile_ran _ _ _ _ _

namespace Outcome.Ran

variable {outcome : Outcome}

theorem eq_success_iff (h : outcome.Ran) {output : String} :
    outcome.exitCode = 0 ∧ outcome.output = output ↔ outcome = .success output := by
  cases h <;> simp [exitCode, Outcome.output]

theorem eq_aborted_iff (h : outcome.Ran) : outcome.exitCode = 101 ↔ outcome = .aborted := by
  cases h <;> simp [exitCode]

theorem prints_nothing (h : outcome.Ran) :
    outcome.exitCode = 0 ∨ outcome.output = "" ∧ (outcome.exitCode = 1 ∨ outcome.exitCode = 101) := by
  cases h <;> simp [exitCode, Outcome.output]

end Outcome.Ran

/-- Listing needs nothing but the settings. -/
theorem execute_of_list {s : Settings} (hlist : o.list = true) (hs : Configured disk o s) (stdin : Option String) :
    execute disk stdin o = list disk s := by
  rw [execute, settings_eq_ok_iff.mpr hs]
  exact if_pos hlist

theorem exitCode_list_iff {s : Settings} : (list disk s).exitCode = 1 ↔ ∃ e, Index.build s disk s.roots = .error e := by
  rw [list_eq]
  cases Index.build s disk s.roots <;> simp [Outcome.exitCode]

/-- A command whose arguments are understood either exits with 0 and prints its whole result or prints nothing at all. It
exits with 0 exactly when there is a result, which is then what is printed. Otherwise it exits with 1, unless it has a
template that stops short: then it breaks down, with 101. When it lists the components it exits with 1 exactly when they
cannot be found, whatever its template and its scope are. -/
theorem run_of_accepted (disk : Disk) (stdin : Option String) {args : List String} {o : Options}
    (hargs : Request.ofArguments args = .run o) :
    let outcome := run disk stdin args
    (∀ output, outcome.exitCode = 0 ∧ outcome.output = output ↔ Prints disk stdin o output) ∧
      (outcome.exitCode = 0 ∨ outcome.output = "" ∧ (outcome.exitCode = 1 ∨ outcome.exitCode = 101)) ∧
      (outcome.exitCode = 101 ↔ BreaksDown disk stdin o) ∧
      ∀ s, o.list = true → Configured disk o s → (outcome.exitCode = 1 ↔ ∃ e, Index.build s disk s.roots = .error e) := by
  intro outcome
  have houtcome : outcome = execute disk stdin o := by
    show run disk stdin args = _
    rw [run, hargs]
  have hran := execute_ran disk stdin o
  rw [houtcome]
  refine ⟨fun output => hran.eq_success_iff.trans execute_eq_success_iff, hran.prints_nothing,
    hran.eq_aborted_iff.trans execute_eq_aborted_iff, fun s hlist hs => ?_⟩
  rw [execute_of_list hlist hs]
  exact exitCode_list_iff

/-- With one root, `{% render "@card" only %}` on the standard input is printed as one call. -/
theorem run_of_accepted_card :
    let disk : Disk := { top := .directory [("r", .directory [("card.twig", .text "")])] }
    let stdin := some "\x7b% render \"@card\" only %\x7d"
    let call : IncludeCall := ⟨"@FrctlTwig/card.twig", .emptyMap, true, false, ⟨0, 25⟩⟩
    Request.ofArguments ["-r", "r"] = .run { roots := [⟨"r"⟩] } ∧
      Prints disk stdin { roots := [⟨"r"⟩] } ((Value.list [.map call.fields]).toJson ++ "\n") := by
  intro disk stdin call
  have hargs : Request.ofArguments ["-r", "r"] = .run { roots := [⟨"r"⟩] } := by decide
  have hrun : run disk stdin ["-r", "r"] = .success ((Value.list [.map call.fields]).toJson ++ "\n") := by decide +kernel
  refine ⟨hargs, ((run_of_accepted disk stdin hargs).1 _).mp ?_⟩
  rw [hrun]
  exact ⟨rfl, rfl⟩

/-- The template `{% render ` makes the command break down: it neither succeeds nor fails. -/
theorem run_trailing_blank :
    let disk : Disk := { top := .directory [] }
    let outcome := run disk (some "\x7b% render ") []
    Request.ofArguments [] = .run {} ∧ outcome.exitCode = 101 ∧
      ¬ (outcome.exitCode = 0 ∨ outcome.exitCode = 1 ∧ outcome.output = "") := by
  intro disk outcome
  have hcode : outcome.exitCode = 101 := by decide +kernel
  refine ⟨by decide, hcode, ?_⟩
  rw [hcode]
  decide

end CommandLine

end Inclusion
