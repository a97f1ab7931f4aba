import Inclusion.Proofs.Catalog.Run
import Inclusion.Proofs.Compiler.Reachable
import Inclusion.Proofs.Component.Kept
/-!
# A compiler that was used answers like a new one

A compiler finds its index once and may keep the configs that it reads. As long as the disk does not change its answers
stay the same all the while, with one exception: configs are kept by the components of their paths, and of two spellings
of one path perhaps only one can be read. A path with a slash at its end leads nowhere if there is a file, but a
compiler that has read the config in the file without the slash gives it for the path with the slash as well.

On a disk that does not change, an operation looks for the index and loads configs, and nothing else happens to the
compiler (`Stable`). So compilers that find the same index differ only in the configs that they keep, and if loads from
these give the same, so does every operation (`Twins.answer`).
-/

namespace Inclusion

namespace Compiler

inductive Answer
  | tags (answer : List String)
  | component (answer : Except CatalogError Component)
  | contains (answer : Except CatalogError Bool)
  | names (answer : Except CatalogError (List String))
  | config (answer : Except ConfigError Config)
  | context (answer : Except ConfigError Context)
  | directive (answer : Except CompileError IncludeCall)
  | template (answer : Except CompileError (List IncludeCall))

/-- The error of reading a config, if that is the answer. -/
def Answer.configError? : Answer → Option ConfigError
  | config (.error e) | context (.error e) | directive (.error (.config e _)) | template (.error (.config e _)) => some e
  | _ => none

/-- What a compiler answers. -/
def answer (disk : Disk) (c : Compiler) : Operation → Answer
  | .register tag => .tags (c.register tag).tags
  | .component name => .component (c.catalog.resolve disk name).1
  | .contains name => .contains (c.catalog.contains disk name).1
  | .names => .names (c.catalog.names disk).1
  | .config p => .config (c.configs.load disk p).1
  | .context p variant => .context (c.configs.context disk p variant).1
  | .directive source => .directive (c.compileDirective disk source).1
  | .template source => .template (c.compileTemplate disk source).1

/-- The compiler after operations, one after another. -/
def run (disk : Disk) (operations : List Operation) (c : Compiler) : Compiler :=
  operations.foldl (after disk) c

variable {disk : Disk} {c c' : Compiler} {I : Compiler → Prop}

/-! ### What a compiler does with a directive -/

theorem resolve_eq (d : Directive) (c : Compiler) :
    c.resolve disk d =
      match d.reference with
      | .error f => (.error (.malformed [f]), c)
      | .ok reference =>
        let indexed := { c with catalog := (c.catalog.getIndex disk).2 }
        match (c.catalog.resolve disk reference.component).1 with
        | .error e => (.error (.catalog e (some d.span)), indexed)
        | .ok component =>
          if d.skipsContext then (.ok ⟨reference, component, none⟩, indexed)
          else
            (((c.configs.load disk component.configPath).1.map fun config =>
                ⟨reference, component, some (config.resolve reference.variant)⟩).mapError fun e =>
                .config e (some d.span),
              { indexed with configs := (c.configs.load disk component.configPath).2 }) := by
  cases href : d.reference with
  | error f => rw [resolve, href]
  | ok reference =>
    have hcatalog : (c.catalog.resolve disk reference.component).2 = (c.catalog.getIndex disk).2 := by
      rw [Catalog.resolve_eq]
    rw [resolve, href, ← hcatalog]
    dsimp only
    cases c.catalog.resolve disk reference.component with
    | mk found catalog =>
      cases found with
      | error e => rfl
      | ok component =>
        dsimp only
        split
        · rfl
        · rw [ConfigStore.context_eq]
          cases (c.configs.load disk component.configPath).1 with
          | error e => rfl
          | ok config => rfl

theorem compileAt_eq (offset : Nat) (cs : List Char) (c : Compiler) :
    c.compileAt disk offset cs =
      if c.tags.contains (leadingTag offset cs).1 then
        match Directive.parse (leadingTag offset cs).1 offset cs with
        | .error f => (.error (.malformed [f]), c)
        | .ok d => ((c.resolve disk d).1.map fun r => r.call d, (c.resolve disk d).2)
      else (.error (.unknownTag (leadingTag offset cs).1 (leadingTag offset cs).2), c) := by
  rw [compileAt]
  dsimp only
  split
  · cases Directive.parse (leadingTag offset cs).1 offset cs with
    | error f => rfl
    | ok d =>
      dsimp only
      cases c.resolve disk d with
      | mk r resolved =>
        cases r with
        | error e => rfl
        | ok r => rfl
  · rfl

/-- Blocks compile one after another; each leaves the compiler for the rest. -/
theorem compileBlocks_cons (b : Template.Block) (rest : List Template.Block) (c : Compiler) :
    (c.compileBlocks disk (b :: rest)).1 = (c.compileAt disk b.start b.text).1.bind fun call =>
      ((c.compileAt disk b.start b.text).2.compileBlocks disk rest).1.map (call :: ·) := by
  rw [compileBlocks]
  split
  · next heq =>
    rw [heq]
    rfl
  · next call c₁ heq =>
    rw [heq]
    dsimp only [Except.bind]
    split
    · next heq' =>
      rw [heq']
      rfl
    · next heq' =>
      rw [heq']
      rfl

/-! ### What operations do to a compiler -/

/-- Looking for the index keeps it, and so does loading a config. -/
structure Stable (disk : Disk) (I : Compiler → Prop) : Prop where
  index : ∀ {c : Compiler}, I c → I { c with catalog := (c.catalog.getIndex disk).2 }
  load : ∀ {c : Compiler} (p : Path), I c → I { c with configs := (c.configs.load disk p).2 }

theorem Stable.resolve (hI : Stable disk I) (d : Directive) (h : I c) : I (c.resolve disk d).2 := by
  rw [resolve_eq]
  split
  · exact h
  · split
    · exact hI.index h
    · split
      · exact hI.index h
      · exact hI.load _ (hI.index h)

theorem Stable.compileAt (hI : Stable disk I) (offset : Nat) (cs : List Char) (h : I c) :
    I (c.compileAt disk offset cs).2 := by
  rw [compileAt_eq]
  split
  · split
    · exact h
    · next d _ => exact hI.resolve d h
  · exact h

theorem Stable.compileTemplate (hI : Stable disk I) (source : String) (h : I c) :
    I (c.compileTemplate disk source).2 :=
  compileBlocks_keeps (fun offset cs _ h => hI.compileAt offset cs h) _ h

/-- What an operation does comes down to looking for the index, loading configs and registering tags. -/
theorem Stable.after (hI : Stable disk I) (hregister : ∀ c tag, I c → I (c.register tag)) (op : Operation) (h : I c) :
    I (c.after disk op) := by
  cases op with
  | register tag => exact hregister c tag h
  | component name =>
    rw [Compiler.after, Catalog.resolve_eq]
    exact hI.index h
  | contains name =>
    rw [Compiler.after, Catalog.contains_eq]
    exact hI.index h
  | names =>
    rw [Compiler.after, Catalog.names_eq]
    exact hI.index h
  | config p => exact hI.load p h
  | context p variant =>
    rw [Compiler.after, ConfigStore.context_eq]
    exact hI.load p h
  | directive source => exact hI.compileAt 0 source.toList h
  | template source => exact hI.compileTemplate source h

theorem Stable.run (hI : Stable disk I) (hregister : ∀ c tag, I c → I (c.register tag)) (operations : List Operation)
    (h : I c) : I (c.run disk operations) := by
  induction operations generalizing c with
  | nil => exact h
  | cons op rest ih => exact ih (hI.after hregister op h)

theorem stable_tags (disk : Disk) (tags : List String) : Stable disk fun c => c.tags = tags where
  index h := h
  load _ h := h

theorem tags_after (disk : Disk) (h : c.tags = c'.tags) (op : Operation) :
    (c.after disk op).tags = (c'.after disk op).tags := by
  cases op with
  | register tag =>
    rw [after, after, register, register, h]
    split
    · exact h
    · rfl
  | directive source =>
    have hc := (stable_tags disk _).compileAt 0 source.toList (c := c) rfl
    have hc' := (stable_tags disk _).compileAt 0 source.toList (c := c') rfl
    exact hc.trans (h.trans hc'.symm)
  | template source =>
    have hc := (stable_tags disk _).compileTemplate source (c := c) rfl
    have hc' := (stable_tags disk _).compileTemplate source (c := c') rfl
    exact hc.trans (h.trans hc'.symm)
  | _ => exact h

theorem tags_run (h : c.tags = c'.tags) (operations : List Operation) :
    (c.run disk operations).tags = (c'.run disk operations).tags := by
  induction operations generalizing c c' with
  | nil => exact h
  | cons op rest ih => exact ih (tags_after disk h op)

theorem catalog_register (tag : String) (c : Compiler) : (c.register tag).catalog = c.catalog := by
  rw [register]
  split <;> rfl

theorem configs_register (tag : String) (c : Compiler) : (c.register tag).configs = c.configs := by
  rw [register]
  split <;> rfl

theorem stable_getIndex (disk : Disk) (found : Except CatalogError Index) :
    Stable disk fun c => (c.catalog.getIndex disk).1 = found where
  index h := (Catalog.getIndex_getIndex disk _).trans h
  load _ h := h

theorem stable_readOn (disk : Disk) : Stable disk fun c => c.configs.ReadOn disk where
  index h := h
  load p h := h.load p

theorem stable_kept_eq_none (disk : Disk) : Stable disk fun c => c.configs.kept = none where
  index h := h
  load p h := ConfigStore.kept_load_of_eq_none h disk p

/-- The index that a compiler finds on a disk stays the same. -/
theorem getIndex_run (operations : List Operation) :
    ((c.run disk operations).catalog.getIndex disk).1 = (c.catalog.getIndex disk).1 := by
  refine (stable_getIndex disk _).run ?_ operations rfl
  intro used tag h
  rwa [catalog_register]

theorem readOn_run (operations : List Operation) (h : c.configs.ReadOn disk) :
    (c.run disk operations).configs.ReadOn disk := by
  refine (stable_readOn disk).run ?_ operations h
  intro used tag h
  rwa [configs_register]

theorem kept_run_of_eq_none (operations : List Operation) (h : c.configs.kept = none) :
    (c.run disk operations).configs.kept = none := by
  refine (stable_kept_eq_none disk).run ?_ operations h
  intro used tag h
  rwa [configs_register]

/-! ### Compilers that find the same index -/

/-- The paths of the configs of the components in an index, if there is one. -/
def ConfigsAmong (found : Except CatalogError Index) (among : Path → Prop) : Prop :=
  ∀ index name component, found = .ok index → Fields.get? name index = some component → among component.configPath

/-- Loads of some paths from two stores give the same, or the second one gives an error that is excused. -/
structure LoadsAlike (disk : Disk) (among : Path → Prop) (R : ConfigStore → ConfigStore → Prop)
    (excused : ConfigError → Prop) : Prop where
  after : ∀ {s s' : ConfigStore} {q : Path}, R s s' → among q → R (s.load disk q).2 (s'.load disk q).2
  answer : ∀ {s s' : ConfigStore} {q : Path}, R s s' → among q →
    (s.load disk q).1 = (s'.load disk q).1 ∨ ∃ e, (s'.load disk q).1 = .error e ∧ excused e

/-- Two compilers know the same tags, find the same index, and keep configs that are related. -/
structure Twins (disk : Disk) (found : Except CatalogError Index) (R : ConfigStore → ConfigStore → Prop)
    (c c' : Compiler) : Prop where
  tags : c.tags = c'.tags
  left : (c.catalog.getIndex disk).1 = found
  right : (c'.catalog.getIndex disk).1 = found
  configs : R c.configs c'.configs

theorem ConfigsAmong.resolve {among : Path → Prop} (hamong : ConfigsAmong (c.catalog.getIndex disk).1 among)
    {name : String} {component : Component} (h : (c.catalog.resolve disk name).1 = .ok component) :
    among component.configPath := by
  rw [Catalog.resolve_eq] at h
  cases hindex : (c.catalog.getIndex disk).1 with
  | error e =>
    rw [hindex] at h
    cases h
  | ok index =>
    rw [hindex] at h
    dsimp only [Except.bind] at h
    cases hcomponent : Fields.get? name index with
    | none =>
      rw [hcomponent] at h
      cases h
    | some found =>
      rw [hcomponent] at h
      cases h
      exact hamong index name _ hindex hcomponent

namespace Twins

variable {found : Except CatalogError Index} {among : Path → Prop} {R : ConfigStore → ConfigStore → Prop}
  {excused : ConfigError → Prop}

theorem withIndex (h : Twins disk found R c c') :
    Twins disk found R { c with catalog := (c.catalog.getIndex disk).2 }
      { c' with catalog := (c'.catalog.getIndex disk).2 } where
  tags := h.tags
  left := (Catalog.getIndex_getIndex disk _).trans h.left
  right := (Catalog.getIndex_getIndex disk _).trans h.right
  configs := h.configs

theorem withLoad (hR : LoadsAlike disk among R excused) {q : Path} (hq : among q) (h : Twins disk found R c c') :
    Twins disk found R { c with configs := (c.configs.load disk q).2 }
      { c' with configs := (c'.configs.load disk q).2 } where
  tags := h.tags
  left := h.left
  right := h.right
  configs := hR.after h.configs hq

variable (hR : LoadsAlike disk among R excused) (hamong : ConfigsAmong found among) (h : Twins disk found R c c')

include hR hamong h

theorem resolve (d : Directive) :
    Twins disk found R (c.resolve disk d).2 (c'.resolve disk d).2 ∧
      ((c.resolve disk d).1 = (c'.resolve disk d).1 ∨
        ∃ e, (c'.resolve disk d).1 = .error (.config e (some d.span)) ∧ excused e) := by
  rw [resolve_eq, resolve_eq]
  cases d.reference with
  | error f => exact ⟨h, .inl rfl⟩
  | ok reference =>
    have hsame : (c.catalog.resolve disk reference.component).1 = (c'.catalog.resolve disk reference.component).1 := by
      rw [Catalog.resolve_eq, Catalog.resolve_eq, h.left, h.right]
    dsimp only
    rw [hsame]
    cases hcomponent : (c'.catalog.resolve disk reference.component).1 with
    | error e => exact ⟨h.withIndex, .inl rfl⟩
    | ok component =>
      have hq : among component.configPath := ConfigsAmong.resolve (h.right ▸ hamong) hcomponent
      dsimp only
      split
      · exact ⟨h.withIndex, .inl rfl⟩
      · refine ⟨withLoad hR hq h.withIndex, ?_⟩
        cases hR.answer h.configs hq with
        | inl heq =>
          left
          rw [heq]
        | inr hexcused =>
          obtain ⟨e, herror, hexcused⟩ := hexcused
          refine .inr ⟨e, ?_, hexcused⟩
          rw [herror]
          rfl

theorem compileAt (offset : Nat) (cs : List Char) :
    Twins disk found R (c.compileAt disk offset cs).2 (c'.compileAt disk offset cs).2 ∧
      ((c.compileAt disk offset cs).1 = (c'.compileAt disk offset cs).1 ∨
        ∃ e span, (c'.compileAt disk offset cs).1 = .error (.config e span) ∧ excused e) := by
  rw [compileAt_eq, compileAt_eq, h.tags]
  split
  · cases Directive.parse (leadingTag offset cs).1 offset cs with
    | error f => exact ⟨h, .inl rfl⟩
    | ok d =>
      obtain ⟨htwins, halike⟩ := resolve hR hamong h d
      refine ⟨htwins, ?_⟩
      cases halike with
      | inl heq => exact .inl (congrArg (Except.map fun r => r.call d) heq)
      | inr hexcused =>
        obtain ⟨e, herror, hexcused⟩ := hexcused
        exact .inr ⟨e, some d.span, congrArg (Except.map fun r => r.call d) herror, hexcused⟩
  · exact ⟨h, .inl rfl⟩

theorem compileBlocks (blocks : List Template.Block) :
    (c.compileBlocks disk blocks).1 = (c'.compileBlocks disk blocks).1 ∨
      ∃ e span, (c'.compileBlocks disk blocks).1 = .error (.config e span) ∧ excused e := by
  induction blocks generalizing c c' with
  | nil => exact .inl rfl
  | cons b rest ih =>
    rw [compileBlocks_cons, compileBlocks_cons]
    obtain ⟨htwins, halike⟩ := compileAt hR hamong h b.start b.text
    cases halike with
    | inl heq =>
      rw [heq]
      cases (c'.compileAt disk b.start b.text).1 with
      | error e => exact .inl rfl
      | ok call =>
        cases ih htwins with
        | inl hrest => exact .inl (congrArg (Except.map (call :: ·)) hrest)
        | inr hexcused =>
          obtain ⟨e, span, herror, hexcused⟩ := hexcused
          exact .inr ⟨e, span, congrArg (Except.map (call :: ·)) herror, hexcused⟩
    | inr hexcused =>
      obtain ⟨e, span, herror, hexcused⟩ := hexcused
      refine .inr ⟨e, span, ?_, hexcused⟩
      rw [herror]
      rfl

/-- If loads of the configs that an operation asks for give the same, the operation does. -/
theorem answer (hload : ∀ p, (c.configs.load disk p).1 = (c'.configs.load disk p).1 ∨
      ∃ e, (c'.configs.load disk p).1 = .error e ∧ excused e) (op : Operation) :
    c.answer disk op = c'.answer disk op ∨ ∃ e, (c'.answer disk op).configError? = some e ∧ excused e := by
  cases op with
  | register tag =>
    left
    exact congrArg Answer.tags (tags_after disk h.tags (.register tag))
  | component name =>
    left
    rw [Compiler.answer, Compiler.answer, Catalog.resolve_eq, Catalog.resolve_eq, h.left, h.right]
  | contains name =>
    left
    rw [Compiler.answer, Compiler.answer, Catalog.contains_eq, Catalog.contains_eq, h.left, h.right]
  | names =>
    left
    rw [Compiler.answer, Compiler.answer, Catalog.names_eq, Catalog.names_eq, h.left, h.right]
  | config p =>
    cases hload p with
    | inl heq => exact .inl (congrArg Answer.config heq)
    | inr hexcused =>
      obtain ⟨e, herror, hexcused⟩ := hexcused
      exact .inr ⟨e, by rw [Compiler.answer, herror, Answer.configError?], hexcused⟩
  | context p variant =>
    rw [Compiler.answer, Compiler.answer, ConfigStore.context_eq, ConfigStore.context_eq]
    cases hload p with
    | inl heq => exact .inl (congrArg (fun r => Answer.context (r.map fun config => config.resolve variant)) heq)
    | inr hexcused =>
      obtain ⟨e, herror, hexcused⟩ := hexcused
      exact .inr ⟨e, by rw [herror, Except.map, Answer.configError?], hexcused⟩
  | directive source =>
    cases (compileAt hR hamong h 0 source.toList).2 with
    | inl heq => exact .inl (congrArg Answer.directive heq)
    | inr hexcused =>
      obtain ⟨e, span, herror, hexcused⟩ := hexcused
      exact .inr ⟨e, by rw [Compiler.answer, compileDirective, herror, Answer.configError?], hexcused⟩
  | template source =>
    rw [Compiler.answer, Compiler.answer, compileTemplate, compileTemplate, h.tags]
    cases compileBlocks hR hamong h (Template.blocks c'.tags source.toList) with
    | inl heq => exact .inl (congrArg Answer.template heq)
    | inr hexcused =>
      obtain ⟨e, span, herror, hexcused⟩ := hexcused
      exact .inr ⟨e, by rw [herror, Answer.configError?], hexcused⟩

end Twins

/-! ### Used compilers and new ones -/

/-- The path ends like those of the configs of components. -/
def EndsLikeConfig (s : Settings) (p : Path) : Prop :=
  OsString.ofText (".config." ++ s.configExtension) <:+ p.bytes

theorem endsLikeConfig_configPath {s : Settings} {root path : Path} {component : Component}
    (h : Component.ofFile s root path = some component) : EndsLikeConfig s component.configPath := by
  rw [Component.ofFile] at h
  split at h
  · cases h
  · obtain ⟨name, -, rfl⟩ := Option.map_eq_some_iff.mp h
    refine List.IsSuffix.trans ?_ (path.suffix_withFileName _)
    rw [String.append_assoc, OsString.ofText_append name]
    exact List.suffix_append _ _

theorem configsAmong_build (s : Settings) (disk : Disk) (roots : List Path) :
    ConfigsAmong (Index.build s disk roots) (EndsLikeConfig s) := by
  intro index name component hindex hcomponent
  have hall := Index.all_of_build (P := fun c => EndsLikeConfig s c.configPath)
    (fun _ _ _ h => endsLikeConfig_configPath h) hindex
  exact hall.get? hcomponent

theorem EndsLikeConfig.endsBlank_iff {s : Settings} {p q : Path} (hp : EndsLikeConfig s p) (hq : EndsLikeConfig s q) :
    p.EndsBlank ↔ q.EndsBlank := by
  refine Path.endsBlank_iff_of_suffix ⟨'c'.toUInt8, ?_, by decide⟩ hp hq
  rw [OsString.ofText_append]
  exact List.mem_append_left _ (by decide)

theorem getIndex_new (paths : SearchPaths) (s : Settings) (disk : Disk) :
    ((new paths s).catalog.getIndex disk).1 = Index.build s disk (paths.roots s.ns) := by
  rw [new, Catalog.getIndex]
  dsimp only
  split
  · next heq => exact heq.symm
  · next heq => exact heq.symm

theorem loadsAlike_eq (disk : Disk) : LoadsAlike disk (fun _ => True) (· = ·) fun _ => False where
  after h _ := by rw [h]
  answer h _ := .inl (by rw [h])

/-- Both stores keep configs of components that were read since, and the first one keeps those from before as well. -/
structure Ahead (disk : Disk) (s : Settings) (before left right : ConfigStore) : Prop where
  left : left.ReadSince disk before (EndsLikeConfig s)
  right : right.ReadSince disk (.new false) (EndsLikeConfig s)

theorem loadsAlike_ahead (s : Settings) {before : ConfigStore} (hbefore : before.ReadOn disk) :
    LoadsAlike disk (EndsLikeConfig s) (Ahead disk s before) (before.Covers disk) where
  after h hq := ⟨h.left.load hq, h.right.load hq⟩
  answer h hq := by
    rw [h.right.load_eq fun p hp _ => (hp.endsBlank_iff hq).mpr]
    exact h.left.load_eq_or hbefore fun p hp _ => (hp.endsBlank_iff hq).mpr

/-- A compiler with configs answers like one without, up to the errors that the configs cover. -/
theorem answer_withConfigs (s : Settings) (disk : Disk) (roots : List Path) {keeps : Bool}
    (hread : c.configs.ReadOn disk) (hnew : c'.configs = .new keeps)
    (hleft : (c.catalog.getIndex disk).1 = Index.build s disk roots)
    (hright : (c'.catalog.getIndex disk).1 = Index.build s disk roots) (htags : c.tags = c'.tags) (op : Operation) :
    c.answer disk op = c'.answer disk op ∨ ∃ e, (c'.answer disk op).configError? = some e ∧ c.configs.Covers disk e := by
  have hahead : Ahead disk s c.configs c.configs c'.configs := ⟨.self disk _ _, hnew ▸ .new disk keeps _ _⟩
  have htwins := Twins.mk htags hleft hright hahead
  refine htwins.answer (loadsAlike_ahead s hread) (configsAmong_build s disk roots) ?_ op
  intro p
  have hself : c.configs.ReadSince disk c.configs fun _ => False := .self disk _ _
  rw [hnew, (ConfigStore.ReadSince.new disk keeps (.new false) fun _ => False).load_eq fun _ h => h.elim]
  exact hself.load_eq_or hread fun _ h => h.elim

/-- What a compiler answers after any operations, on a disk that did not change. If it does not keep configs it answers
like a new one with the same tags, and a new one that keeps configs answers like one that does not. One that keeps them
and was used answers like a new one that is given the configs, and like a new one without them as well, unless the new
one answers that it cannot read a config and the configs cover that error. The function that compiles a template on its
own answers like a new compiler with the one tag that every compiler knows. -/
theorem answer_run (disk : Disk) (paths : SearchPaths) (s : Settings) (operations : List Operation) (op : Operation) :
    let fresh (keeps : Bool) := new paths { s with cacheConfigs := keeps }
    let used (keeps : Bool) := (fresh keeps).run disk operations
    let alone (keeps : Bool) := { fresh keeps with tags := (used keeps).tags }
    (used true).tags = (used false).tags ∧
      (used false).answer disk op = (alone false).answer disk op ∧
      (alone true).answer disk op = (alone false).answer disk op ∧
      (used true).answer disk op = { alone true with configs := (used true).configs }.answer disk op ∧
      ((used true).answer disk op = (alone true).answer disk op ∨
        ∃ e, ((alone true).answer disk op).configError? = some e ∧ (used true).configs.Covers disk e) ∧
      ∀ keeps source, paths = .loader s.loader → (used keeps).tags = [renderTag] →
        (alone keeps).answer disk (.template source) =
          .template (Inclusion.compileTemplate disk source { s with cacheConfigs := keeps }) := by
  intro fresh used alone
  have hfresh : (fresh true).tags = (fresh false).tags := rfl
  have htags : (used true).tags = (used false).tags := tags_run hfresh operations
  have halone (keeps : Bool) : ((alone keeps).catalog.getIndex disk).1 = Index.build s disk (paths.roots s.ns) :=
    getIndex_new paths { s with cacheConfigs := keeps } disk
  have hindex (keeps : Bool) : ((used keeps).catalog.getIndex disk).1 = Index.build s disk (paths.roots s.ns) :=
    (getIndex_run operations).trans (halone keeps)
  have hread (keeps : Bool) : (used keeps).configs.ReadOn disk :=
    readOn_run operations (ConfigStore.readOn_new disk keeps)
  have hused (keeps : Bool) : (used keeps).answer disk op = (alone keeps).answer disk op ∨
      ∃ e, ((alone keeps).answer disk op).configError? = some e ∧ (used keeps).configs.Covers disk e :=
    answer_withConfigs s disk _ (hread keeps) rfl (hindex keeps) (halone keeps) rfl op
  refine ⟨htags, ?_, ?_, ?_, hused true, ?_⟩
  · refine (hused false).resolve_right ?_
    rintro ⟨e, -, hcovers⟩
    exact ConfigStore.not_covers_of_kept_eq_none (kept_run_of_eq_none operations rfl) disk e hcovers
  · have hnew := ConfigStore.readOn_new disk true
    refine (answer_withConfigs s disk _ hnew rfl (halone true) (halone false) htags op).resolve_right ?_
    rintro ⟨e, -, hcovers⟩
    exact ConfigStore.not_covers_new true disk e hcovers
  · have htwins : Twins disk _ (· = ·) (used true) { alone true with configs := (used true).configs } :=
      ⟨rfl, hindex true, halone true, rfl⟩
    refine (htwins.answer (loadsAlike_eq disk) (fun _ _ _ _ _ => trivial) (fun _ => .inl rfl) op).resolve_right ?_
    rintro ⟨e, -, hnever⟩
    exact hnever
  · rintro keeps source rfl honly
    have hnew : alone keeps = ofSettings { s with cacheConfigs := keeps } := by
      show { fresh keeps with tags := (used keeps).tags } = _
      rw [honly]
      rfl
    rw [hnew]
    rfl

/-- A file `c.yml` can be read, but not with a slash after its name. A compiler that has read it gives its context for
both. -/
theorem answer_run_slash :
    let disk : Disk := { top := .directory [("c.yml", .text "")] }
    let fresh := new (.fixed []) { cacheConfigs := true }
    let used := fresh.run disk [.context ⟨"c.yml"⟩ none]
    used.tags = fresh.tags ∧
      used.answer disk (.context ⟨"c.yml/"⟩ none) = .context (.ok [("variant", .null)]) ∧
      fresh.answer disk (.context ⟨"c.yml/"⟩ none) = .context (.error (.unreadable ⟨"c.yml/"⟩ .notADirectory)) ∧
      used.answer disk (.context ⟨"c.yml/"⟩ none) ≠ fresh.answer disk (.context ⟨"c.yml/"⟩ none) := by
  intro disk fresh used
  have hused : used.answer disk (.context ⟨"c.yml/"⟩ none) = .context (.ok [("variant", .null)]) := rfl
  have hfresh : fresh.answer disk (.context ⟨"c.yml/"⟩ none) =
      .context (.error (.unreadable ⟨"c.yml/"⟩ .notADirectory)) := rfl
  refine ⟨rfl, hused, hfresh, ?_⟩
  rw [hused, hfresh]
  intro h
  cases h

end Compiler

end Inclusion
