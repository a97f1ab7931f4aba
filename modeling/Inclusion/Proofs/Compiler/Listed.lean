import Inclusion.Proofs.Catalog.Lookup
import Inclusion.Proofs.Compiler.Run
import Inclusion.Proofs.Grammar.Parse
import Inclusion.Proofs.Grammar.Source
import Inclusion.Proofs.Reference
/-!
# Including what is listed

A component can be included by its name, with a sign before it and in quotes. The directive always reads, because
quotes and backslashes are escaped; which component it includes is up to how the reference is read. So a listed name
includes its own component if nothing of the name is taken off (`Reference.IsPlain`), and never does otherwise.
-/

namespace Inclusion

open Grammar
open Lexer (Lexes escape)

/-! ### A directive for a name -/

/-- The directive that includes the component with a name and gives it no variables. -/
def plainText (name : String) : String :=
  "render " ++ String.ofList ('"' :: (escape '"' ("@" ++ name).toList ++ ['"'])) ++ " only"

/-- What the directive says. -/
def plainSentence (name : String) : Sentence where
  block := false
  component := .one (.literal (.string ("@" ++ name)))
  missing := false
  vars := none
  only := true

theorem toList_plainText (name : String) : (plainText name).toList =
    "render".toList ++ ' ' :: '"' :: (escape '"' ("@" ++ name).toList ++ '"' :: " only".toList) := by
  simp [plainText]

theorem lexes_plainText (name : String) : Lexes (plainText name).toList ((plainSentence name).tokens "render") := by
  have honly : Lexes " only".toList [.clause .only] := (Lexes.nil.word "only".toList (by decide) (by simp)).blank
  have hstring := (honly.string (.inl rfl) ("@" ++ name)).blank
  have htag := Source.lexes_word "render".toList (by decide) rfl hstring
  rw [toList_plainText]
  exact htag

theorem leadingTag_plainText (name : String) : (leadingTag 0 (plainText name).toList).1 = Compiler.renderTag := by
  have hstart (rest : List Char) : trimStart ("render".toList ++ rest) = "render".toList ++ rest :=
    List.dropWhile_cons_of_neg (by decide)
  have hword (rest : List Char) : ("render".toList ++ ' ' :: rest).takeWhile isWordChar = "render".toList :=
    Lexer.takeWhile_append_stop (List.all_eq_true.mp (by decide)) (by simp; decide)
  rw [toList_plainText, leadingTag, hstart]
  dsimp only
  split
  · next heq => cases heq
  · next heq => cases heq
  · next heq => cases heq
  · rw [hword, String.ofList_toList]
    rfl

theorem parse_plainText (name : String) : ∃ d, Directive.parse Compiler.renderTag 0 (plainText name).toList = .ok d ∧
    d.reference.toOption = Reference.parse ("@" ++ name) ∧ d.skipsContext = true := by
  obtain ⟨hpieces, htokens⟩ := lexes_plainText name
  have haccepted : Lexer.firstRejected 0 (plainText name).toList = none :=
    Lexer.firstRejectedFrom_eq_none 0 fun p hp => (hpieces p hp).1
  rw [← Lexer.tokens_eq_filterMap] at htokens
  refine ⟨_, Directive.parse_eq_ok_iff.mpr ⟨haccepted, plainSentence name, htokens.symm, rfl⟩, ?_, rfl⟩
  have hconstant : (plainSentence name).component.expr.constant? = some ("@" ++ name) := rfl
  rw [Directive.reference]
  simp only [Directive.ofOutline, Sentence.outline, hconstant]
  cases Reference.parse ("@" ++ name) <;> rfl

namespace Compiler

variable {disk : Disk} {c : Compiler}

/-- The directive includes the component that the reference is read as. -/
theorem compile_plainText (disk : Disk) (htag : renderTag ∈ c.tags) (name : String) :
    (c.compileDirective disk (plainText name)).1.toOption.map IncludeCall.templateId =
      (Reference.parse ("@" ++ name)).bind fun r =>
        (c.catalog.resolve disk r.component).1.toOption.map Component.templateId := by
  obtain ⟨d, hparse, hreference, hskips⟩ := parse_plainText name
  rw [compileDirective, compileAt_eq, leadingTag_plainText, if_pos (List.contains_iff_mem.mpr htag), hparse,
    ← hreference]
  dsimp only
  rw [resolve_eq]
  cases d.reference with
  | error f => rfl
  | ok reference =>
    dsimp only [Except.toOption, Option.bind_some]
    cases (c.catalog.resolve disk reference.component).1 with
    | error e => rfl
    | ok component =>
      dsimp only
      rw [if_pos hskips]
      rfl

/-- No component that a search finds has an empty name. -/
theorem ne_empty_of_mem_names {catalog : Catalog} (hindex : catalog.index = none) {names : List String}
    (hnames : (catalog.names disk).1 = .ok names) {name : String} (hname : name ∈ names) : name ≠ "" := by
  obtain ⟨index, hget, hmem⟩ := Catalog.mem_names_iff.mp ⟨names, hnames, hname⟩
  have hbuild : Index.build catalog.settings disk (catalog.paths.roots catalog.settings.ns) = .ok index := by
    rw [Catalog.getIndex, hindex] at hget
    dsimp only at hget
    split at hget
    · next hbuild =>
      cases hget
      exact hbuild
    · cases hget
  have hfile (root path : Path) (component : Component)
      (h : Component.ofFile catalog.settings root path = some component) : component.name ≠ "" := by
    rw [Component.ofFile] at h
    split at h
    · cases h
    · obtain ⟨other, hother, rfl⟩ := Option.map_eq_some_iff.mp h
      exact (templateName?_eq_some_iff.mp hother).1
  cases hfound : Fields.get? name index with
  | none => exact absurd hmem (Fields.get?_eq_none_iff.mp hfound)
  | some component =>
    rw [← (Index.exists_root_of_build hbuild hfound).1]
    exact (Index.all_of_build hfile hbuild).get? hfound

/-- A listed name includes its own component if the name is plain. If it is not, the directive includes another
component or does not compile. The names that a search finds are not empty. -/
theorem compile_of_mem_names (htag : renderTag ∈ c.tags) {names : List String}
    (hnames : (c.catalog.names disk).1 = .ok names) {name : String} (hname : name ∈ names) :
    (Reference.IsPlain name → ∃ found call, (c.catalog.resolve disk name).1 = .ok found ∧
      (c.compileDirective disk (plainText name)).1 = .ok call ∧ call.templateId = found.templateId) ∧
    (¬ Reference.IsPlain name → ∀ call, (c.compileDirective disk (plainText name)).1 = .ok call →
      ∃ other found, other ≠ name ∧ (c.catalog.resolve disk other).1 = .ok found ∧
        call.templateId = found.templateId) ∧
    (c.catalog.index = none → name ≠ "") := by
  have hcompile := compile_plainText disk htag name
  refine ⟨fun hplain => ?_, fun hplain call hcall => ?_, fun hindex => ne_empty_of_mem_names hindex hnames hname⟩
  · obtain ⟨found, hfound⟩ := Catalog.exists_resolve_iff.mpr (Catalog.mem_names_iff.mp ⟨names, hnames, hname⟩)
    rw [Reference.parse_of_isPlain hplain, Option.bind_some, hfound] at hcompile
    cases hcall : (c.compileDirective disk (plainText name)).1 with
    | error e =>
      rw [hcall] at hcompile
      cases hcompile
    | ok call =>
      rw [hcall] at hcompile
      exact ⟨found, call, hfound, rfl, Option.some.inj hcompile⟩
  · rw [hcall] at hcompile
    obtain ⟨r, hr, hid⟩ := Option.bind_eq_some_iff.mp hcompile.symm
    refine ⟨r.component, ?_⟩
    cases hfound : (c.catalog.resolve disk r.component).1 with
    | error e =>
      rw [hfound] at hid
      cases hid
    | ok found =>
      rw [hfound] at hid
      exact ⟨found, fun heq => hplain (Reference.isPlain_of_parse hr heq), rfl, (Option.some.inj hid).symm⟩

/-- The name `card` is plain. -/
theorem compile_of_mem_names_card :
    let disk : Disk := ⟨.directory [("r", .directory [("card.twig", .text "")])], []⟩
    let c := new (.fixed [⟨"r"⟩]) {}
    renderTag ∈ c.tags ∧ (c.catalog.names disk).1 = .ok ["card"] ∧ Reference.IsPlain "card" ∧
      ∃ found call, (c.catalog.resolve disk "card").1 = .ok found ∧
        (c.compileDirective disk (plainText "card")).1 = .ok call ∧ call.templateId = found.templateId := by
  intro disk c
  have hnames : (c.catalog.names disk).1 = .ok ["card"] := by decide +kernel
  have hend : ∀ last ∈ "card".toList.getLast?, isSpace last = false := by
    intro last hlast
    have hd : "card".toList.getLast? = some 'd' := by decide
    obtain rfl : 'd' = last := Option.some.inj (hd.symm.trans hlast)
    decide
  have hplain : Reference.IsPlain "card" := ⟨by decide, by decide, by decide, hend⟩
  exact ⟨List.mem_singleton_self _, hnames, hplain,
    (compile_of_mem_names (List.mem_singleton_self _) hnames List.mem_cons_self).1 hplain⟩

/-- Names with a separator, with a sign in front or with a blank at the end are listed, but they are read as other
names, which are not. -/
theorem compile_of_not_plain :
    let disk : Disk := ⟨.directory [("a", .directory [("card--wide.twig", .text "")]),
      ("b", .directory [("@at.twig", .text "")]), ("c", .directory [("tab .twig", .text "")])], []⟩
    let c := new (.fixed [⟨"a"⟩, ⟨"b"⟩, ⟨"c"⟩]) {}
    ∀ name ∈ ["card--wide", "@at", "tab "],
      (∃ names, (c.catalog.names disk).1 = .ok names ∧ name ∈ names) ∧
      ∀ call, (c.compileDirective disk (plainText name)).1 ≠ .ok call := by
  intro disk c name hname
  have hindex : (c.catalog.getIndex disk).1 = .ok [
      ("card--wide", ⟨"card--wide", "@FrctlTwig/card--wide.twig", ⟨"a/card--wide.config.yml"⟩⟩),
      ("@at", ⟨"@at", "@FrctlTwig/@at.twig", ⟨"b/@at.config.yml"⟩⟩),
      ("tab ", ⟨"tab ", "@FrctlTwig/tab .twig", ⟨"c/tab .config.yml"⟩⟩)] := by decide +kernel
  have hread : ∃ r, Reference.parse ("@" ++ name) = some r ∧ r.component ∈ ["card", "at", "tab"] := by
    simp only [List.mem_cons, List.not_mem_nil, or_false] at hname
    obtain rfl | rfl | rfl := hname
    · exact ⟨⟨"card", some "wide"⟩, by decide +kernel, by decide⟩
    · exact ⟨⟨"at", none⟩, by decide +kernel, by decide⟩
    · exact ⟨⟨"tab", none⟩, by decide +kernel, by decide⟩
  refine ⟨Catalog.mem_names_iff.mpr ⟨_, hindex, hname⟩, fun call hcall => ?_⟩
  obtain ⟨r, hparse, hcomponent⟩ := hread
  have hunknown : (c.catalog.resolve disk r.component).1 = .error (.unknown r.component) := by
    rw [Catalog.resolve_eq, hindex]
    simp only [List.mem_cons, List.not_mem_nil, or_false] at hcomponent
    obtain heq | heq | heq := hcomponent
    · rw [heq]
      rfl
    · rw [heq]
      rfl
    · rw [heq]
      rfl
  have hcompile := compile_plainText disk (c := c) (List.mem_singleton_self _) name
  rw [hcall, hparse, Option.bind_some, hunknown] at hcompile
  cases hcompile

end Compiler

end Inclusion
