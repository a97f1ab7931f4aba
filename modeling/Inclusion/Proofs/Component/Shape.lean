import Inclusion.Component.Document
import Inclusion.Expr.Eval
import Inclusion.Proofs.Component.Json
import Inclusion.Proofs.Component.Toml
import Inclusion.Proofs.Component.Yaml
import Mathlib.Data.List.Forall2
import Mathlib.Logic.Relation
/-!
# The form of config documents

A config document is a map. The value of `default` is a string, that of `context` is a map and that of
`variants` is a list of maps with names; each of the three can be left out or be null. This form is
`View.Fits`, and it is the same for every format. The formats differ in the nodes that they take for a string, a
map, a list or null: that is the `View` of a format. A document that has no such form is refused
(`decoded_of_decode`).

The views are wider than the types of the documents. In YAML every scalar is a string, whatever it stands for,
an empty plain scalar is a map and a list, and a plain scalar with the tag `!` stands for what it stands for
without it. In TOML a date or a time is a map. In JSON and in TOML an array can be a variant, its name first.
-/

namespace Inclusion

/-! ### The form -/

/-- What a format takes the nodes of a document for. -/
structure View (ν : Type) where
  /-- The node is a map that has the key once and with the value, or that does not have it. -/
  Member : ν → String → Option ν → Prop
  IsNull : ν → Prop
  IsText : ν → String → Prop
  IsMap : ν → Prop
  Items : ν → List ν → Prop
  /-- The node is no map, and is still taken for a variant with the name. -/
  Loose : ν → String → Prop

/-- A value that can be left out and can be null. -/
inductive Optionally {ν α : Type} (IsNull : ν → Prop) (R : ν → α → Prop) : Option ν → Option α → Prop
  | missing : Optionally IsNull R none none
  | null {node : ν} (h : IsNull node) : Optionally IsNull R (some node) none
  | value {node : ν} {a : α} (h : R node a) : Optionally IsNull R (some node) (some a)

/-- The key stands among the entries once, with the value, or not at all. -/
def Single {κ ν : Type} [DecidableEq κ] (key : κ) (entries : List (κ × ν)) (found : Option ν) : Prop :=
  (entries.filter fun e => e.1 = key).map Prod.snd = found.toList

namespace View

variable {ν α : Type} (V : View ν)

/-- The field of the node is left out or null, or it is `R`. -/
def Field (node : ν) (key : String) (R : ν → α → Prop) (a : Option α) : Prop :=
  ∃ found, V.Member node key found ∧ Optionally V.IsNull R found a

/-- The node is a variant with the name. -/
def Named (node : ν) (name : String) : Prop :=
  (∃ value, V.Member node "name" (some value) ∧ V.IsText value name) ∨ V.Loose node name

def Variants (node : ν) (variants : List Variant) : Prop :=
  ∃ items, V.Items node items ∧ List.Forall₂ (fun item v => V.Named item v.name) items variants

structure Fits (node : ν) (config : Config) : Prop where
  defaultVariant : V.Field node "default" V.IsText config.defaultVariant
  context : V.Field node "context" (fun n _ => V.IsMap n) config.context
  variants : V.Field node "variants" V.Variants config.variants

end View

/-! ### JSON -/

namespace Json

def view : View Json where
  Member json key found := ∃ members, json = .object members ∧ Single (some key) members found
  IsNull json := json = .null
  IsText json text := json = .string (some text)
  IsMap json := ∃ members, json = .object members
  Items json items := json = .array items
  Loose json name := ∃ rest, json = .array (.string (some name) :: rest) ∧ rest.length ≤ 1

theorem single_of_member? {key : String} {members : List (Option String × Json)} {found : Option Json}
    (h : member? key members = some found) : Single (some key) members found := by
  rw [member?] at h
  rw [Single]
  split at h
  · next hfilter =>
    cases h
    rw [hfilter]
    rfl
  · next hfilter =>
    cases h
    rw [hfilter]
    rfl
  · cases h

theorem field_of_optionalMember? {α : Type} {R : Json → α → Prop} {read : Json → Option (Option α)} {key : String}
    {members : List (Option String × Json)} {a : Option α}
    (hread : ∀ json a, read json = some a → Optionally view.IsNull R (some json) a)
    (h : optionalMember? read key members = some a) : view.Field (.object members) key R a := by
  rw [optionalMember?] at h
  split at h
  · cases h
  · next hmember =>
    cases h
    exact ⟨none, ⟨members, rfl, single_of_member? hmember⟩, .missing⟩
  · next json hmember => exact ⟨some json, ⟨members, rfl, single_of_member? hmember⟩, hread json a h⟩

theorem optionally_of_optionalString? {json : Json} {text : Option String} (h : optionalString? json = some text) :
    Optionally view.IsNull view.IsText (some json) text := by
  rw [optionalString?.eq_def] at h
  split at h
  · cases h
    exact .null rfl
  · cases h
    exact .value rfl
  · cases h

theorem optionally_of_optionalObject? {depth : Nat} {json : Json} {context : Option Context}
    (h : optionalObject? depth json = some context) :
    Optionally view.IsNull (fun n _ => view.IsMap n) (some json) context := by
  rw [optionalObject?.eq_def] at h
  split at h
  · cases h
    exact .null rfl
  · obtain ⟨fields, hobject, rfl⟩ := Option.map_eq_some_iff.1 h
    rw [object?.eq_def] at hobject
    split at hobject
    · exact .value ⟨_, rfl⟩
    · cases hobject

end Json

theorem Variant.named_of_ofJson? {depth : Nat} {json : Json} {v : Variant} (h : Variant.ofJson? depth json = some v) :
    Json.view.Named json v.name := by
  rw [Variant.ofJson?.eq_def] at h
  split at h
  · next members =>
    split at h
    · split at h
      · next name _ hname _ =>
        cases h
        exact .inl ⟨_, ⟨members, rfl, Json.single_of_member? hname⟩, rfl⟩
      · cases h
    · cases h
  · cases h
    exact .inr ⟨[], rfl, by simp⟩
  · next name context =>
    obtain ⟨c, -, rfl⟩ := Option.map_eq_some_iff.1 h
    exact .inr ⟨[context], rfl, by simp⟩
  · cases h

namespace Config

theorem optionally_of_variantsOfJson? {depth : Nat} {json : Json} {variants : Option (List Variant)}
    (h : variantsOfJson? depth json = some variants) :
    Optionally Json.view.IsNull Json.view.Variants (some json) variants := by
  rw [variantsOfJson?.eq_def] at h
  split at h
  · cases h
    exact .null rfl
  · next items =>
    obtain ⟨vs, hvs, rfl⟩ := Option.map_eq_some_iff.1 h
    have hnamed := (forall₂_of_mapM_eq_some hvs).imp fun item v => Variant.named_of_ofJson?
    exact .value ⟨items, rfl, hnamed⟩
  · cases h

theorem fits_of_ofJson? {members : List (Option String × Json)} {config : Config}
    (h : ofJson? (.object members) = some config) : Json.view.Fits (.object members) config := by
  rw [ofJson?] at h
  split at h
  · split at h
    · next hdefault hcontext hvariants =>
      cases h
      exact ⟨Json.field_of_optionalMember? (fun _ _ => Json.optionally_of_optionalString?) hdefault,
        Json.field_of_optionalMember? (fun _ _ => Json.optionally_of_optionalObject?) hcontext,
        Json.field_of_optionalMember? (fun _ _ => optionally_of_variantsOfJson?) hvariants⟩
    · cases h
  · cases h

end Config

/-- The items of an array are the fields of a config in order, and those at the end can be left out. -/
structure Json.Listed (items : List Json) (config : Config) : Prop where
  length_le : items.length ≤ 3
  defaultVariant : Optionally view.IsNull view.IsText (some (items[0]?.getD .null)) config.defaultVariant
  context : Optionally view.IsNull (fun n _ => view.IsMap n) (some (items[1]?.getD .null)) config.context
  variants : Optionally view.IsNull view.Variants (some (items[2]?.getD .null)) config.variants

theorem Config.listed_of_ofJson? {items : List Json} {config : Config} (h : ofJson? (.array items) = some config) :
    Json.Listed items config := by
  rw [ofJson?] at h
  split at h
  · cases h
  · next hlength =>
    split at h
    · next hdefault hcontext hvariants =>
      cases h
      exact ⟨Nat.le_of_not_lt hlength, Json.optionally_of_optionalString? hdefault,
        Json.optionally_of_optionalObject? hcontext, optionally_of_variantsOfJson? hvariants⟩
    · cases h

/-! ### TOML -/

namespace Toml

/-- There is no null. -/
def view : View Toml where
  Member t key found := ∃ inline fields, t = .table inline fields ∧ Fields.get? key fields = found
  IsNull _ := False
  IsText t text := t = .scalar (.string text)
  IsMap t := (∃ inline fields, t = .table inline fields) ∨ ∃ text, t = .datetime text
  Items t items := t = .array items
  Loose t name := ∃ rest, t = .array (.scalar (.string name) :: rest)

theorem isText_of_string? {t : Toml} {text : String} (h : t.string? = some text) : view.IsText t text := by
  rw [string?.eq_def] at h
  split at h
  · cases h
    rfl
  · cases h

theorem isMap_of_map? {t : Toml} {fields : Fields Value} (h : t.map? = some fields) : view.IsMap t := by
  cases t with
  | scalar s => cases h
  | datetime text => exact .inr ⟨text, rfl⟩
  | array items => cases h
  | table inline fields => exact .inl ⟨inline, fields, rfl⟩

theorem field_of_optional? {α : Type} {R : Toml → α → Prop} {read : Toml → Option α} {inline : Bool}
    {fields : Fields Toml} {key : String} {a : Option α} (hread : ∀ t a, read t = some a → R t a)
    (h : optional? read (Fields.get? key fields) = some a) : view.Field (.table inline fields) key R a := by
  refine ⟨_, ⟨inline, fields, rfl, rfl⟩, ?_⟩
  cases hget : Fields.get? key fields with
  | none =>
    rw [hget] at h
    cases h
    exact .missing
  | some t =>
    rw [hget] at h
    obtain ⟨b, hb, rfl⟩ := Option.map_eq_some_iff.1 h
    exact .value (hread t b hb)

/-- The top of a document is a table. -/
theorem table_of_parse {text : String} {t : Toml} (h : parse text = some t) : ∃ fields, t = .table false fields := by
  obtain ⟨draft, -, hfinish⟩ := Option.bind_eq_some_iff.1 h
  obtain ⟨entries, -, rfl⟩ := Option.map_eq_some_iff.1 hfinish
  exact ⟨_, rfl⟩

end Toml

namespace Variant

/-- The name is the field of a table or the first item of an array. -/
theorem name_of_record? {t name : Toml} {more : List (Option Toml)}
    (h : Toml.record? tomlFields t = some (some name :: more)) :
    Toml.view.Member t "name" (some name) ∨ ∃ rest, t = .array (name :: rest) := by
  cases t with
  | scalar s => cases h
  | datetime text => cases h
  | table inline fields =>
    obtain ⟨hget, -⟩ := List.cons.inj (Option.some.inj h)
    exact .inl ⟨inline, fields, rfl, hget⟩
  | array items =>
    rw [Toml.record?] at h
    cases items with
    | nil => cases h
    | cons item rest =>
      split at h
      · obtain ⟨hitem, -⟩ := List.cons.inj (Option.some.inj h)
        cases hitem
        exact .inr ⟨rest, rfl⟩
      · cases h

theorem named_of_ofToml? {t : Toml} {v : Variant} (h : ofToml? t = some v) : Toml.view.Named t v.name := by
  rw [ofToml?.eq_def] at h
  split at h
  · next name context hrecord =>
    split at h
    · next text _ htext _ =>
      cases h
      have hname : Toml.view.IsText name text := Toml.isText_of_string? htext
      rcases name_of_record? hrecord with hmember | ⟨rest, rfl⟩
      · exact .inl ⟨name, hmember, hname⟩
      · exact .inr ⟨rest, by rw [hname]⟩
    · cases h
  · cases h

end Variant

namespace Config

theorem variants_of_variantsOfToml? {t : Toml} {vs : List Variant} (h : variantsOfToml? t = some vs) :
    Toml.view.Variants t vs := by
  rw [variantsOfToml?.eq_def] at h
  split at h
  · next items => exact ⟨items, rfl, (forall₂_of_mapM_eq_some h).imp fun item v => Variant.named_of_ofToml?⟩
  · cases h

theorem fits_of_ofToml? {inline : Bool} {fields : Fields Toml} {config : Config}
    (h : ofToml? (.table inline fields) = some config) : Toml.view.Fits (.table inline fields) config := by
  rw [ofToml?] at h
  split at h
  · next hrecord =>
    cases hrecord
    split at h
    · next hdefault hcontext hvariants =>
      cases h
      exact ⟨Toml.field_of_optional? (fun _ _ => Toml.isText_of_string?) hdefault,
        Toml.field_of_optional? (fun _ _ => Toml.isMap_of_map?) hcontext,
        Toml.field_of_optional? (fun _ _ => variants_of_variantsOfToml?) hvariants⟩
    · cases h
  · cases h

end Config

/-! ### YAML -/

namespace Yaml

namespace Document

open Decode

variable (d : Document)

/-- The node is an alias of the target. -/
def Points (node target : Node Nat) : Prop :=
  ∃ number t, node = .alias number ∧ d.targets.find? (fun t => t.1 = number) = some t ∧ t.2 = target

/-- Aliases lead from the node to the target. -/
def Leads : Node Nat → Node Nat → Prop :=
  Relation.ReflTransGen d.Points

/-- The node is a scalar with the text, whatever it stands for. -/
def IsText (node : Node Nat) (text : String) : Prop :=
  ∃ p plain cs, d.Leads node (.scalar p plain cs) ∧ text = String.ofList cs

/-- The node is a plain scalar without text. -/
def IsBlank (node : Node Nat) : Prop :=
  ∃ p, d.Leads node (.scalar p true [])

def IsNull (node : Node Nat) : Prop :=
  ∃ p cs, d.Leads node (.scalar p true cs) ∧
    ((cs = [] ∧ p.tag = none) ∨ (isNull cs ∧ ∀ tag ∈ p.tag, String.ofList tag = "tag:yaml.org,2002:null"))

/-- The node is a mapping with the entries, whose keys are scalars; a plain scalar without text has none. -/
def Maps (node : Node Nat) (entries : List (String × Node Nat)) : Prop :=
  (∃ p pairs, d.Leads node (.mapping p pairs) ∧
    List.Forall₂ (fun pair e => d.IsText pair.1 e.1 ∧ pair.2 = e.2) pairs entries) ∨
  (d.IsBlank node ∧ entries = [])

/-- The node is a list of the items; a plain scalar without text has none. -/
def Lists (node : Node Nat) (items : List (Node Nat)) : Prop :=
  (∃ p, d.Leads node (.list p items)) ∨ (d.IsBlank node ∧ items = [])

def view : View (Node Nat) where
  Member node key found := ∃ entries, d.Maps node entries ∧ Single key entries found
  IsNull := d.IsNull
  IsText := d.IsText
  IsMap node := ∃ entries, d.Maps node entries
  Items := d.Lists
  Loose _ _ := False

/-- What holds of the end of a chain of aliases also holds of its start. -/
def Follows {α : Type} (R : Node Nat → α → Prop) : Prop :=
  ∀ node target a, d.Leads node target → R target a → R node a

theorem follows_isText : d.Follows d.IsText := by
  rintro node target text hleads ⟨p, plain, cs, h, rfl⟩
  exact ⟨p, plain, cs, hleads.trans h, rfl⟩

theorem IsBlank.of_leads {node target : Node Nat} (hleads : d.Leads node target) (h : d.IsBlank target) :
    d.IsBlank node := by
  obtain ⟨p, h⟩ := h
  exact ⟨p, hleads.trans h⟩

theorem follows_maps : d.Follows d.Maps := by
  rintro node target entries hleads (⟨p, pairs, h, hpairs⟩ | ⟨h, hentries⟩)
  · exact .inl ⟨p, pairs, hleads.trans h, hpairs⟩
  · exact .inr ⟨.of_leads d hleads h, hentries⟩

theorem follows_lists : d.Follows d.Lists := by
  rintro node target items hleads (⟨p, h⟩ | ⟨h, hitems⟩)
  · exact .inl ⟨p, hleads.trans h⟩
  · exact .inr ⟨.of_leads d hleads h, hitems⟩

theorem follows_variants : d.Follows d.view.Variants := by
  rintro node target variants hleads ⟨items, hitems, hnamed⟩
  exact ⟨items, d.follows_lists _ _ _ hleads hitems, hnamed⟩

theorem isBlank_of_isEmptyScalar {node target : Node Nat} (hleads : d.Leads node target)
    (h : isEmptyScalar target) : d.IsBlank node := by
  rw [isEmptyScalar.eq_def] at h
  split at h
  · exact ⟨_, hleads⟩
  · cases h

theorem gives_follow (node : Node Nat) : Gives (d.follow node) (d.Leads node) := by
  rw [follow.eq_def]
  split
  · next number =>
    refine gives_bind (gives_any _) fun left _ => ?_
    split
    · exact gives_failure
    · refine gives_bind (gives_any _) fun _ _ => ?_
      split
      · next k target hfind => exact gives_pure (.single ⟨number, (k, target), rfl, hfind, rfl⟩)
      · exact gives_failure
  · exact gives_pure .refl

theorem gives_text (node : Node Nat) : Gives (d.text node) (d.IsText node) := by
  rw [text.eq_def]
  refine gives_bind (d.gives_follow node) fun target hleads => ?_
  split
  · exact gives_pure ⟨_, _, _, hleads, rfl⟩
  · exact gives_failure

theorem gives_entries (node : Node Nat) : Gives (d.entries node) (d.Maps node) := by
  rw [entries.eq_def]
  refine gives_bind (d.gives_follow node) fun target hleads => ?_
  split
  · next p pairs =>
    refine Gives.imp (gives_forall₂ fun pair _ => ?_) fun es hes => .inl ⟨p, pairs, hleads, hes⟩
    exact gives_bind (d.gives_text pair.1) fun key hkey => gives_pure ⟨hkey, rfl⟩
  · split
    · next hempty => exact gives_pure (.inr ⟨d.isBlank_of_isEmptyScalar hleads hempty, rfl⟩)
    · exact gives_failure

theorem gives_member? (key : String) (es : List (String × Node Nat)) : Gives (member? key es) (Single key es) := by
  rw [member?]
  split
  · next hfilter => exact gives_pure (by rw [Single, hfilter]; rfl)
  · next hfilter => exact gives_pure (by rw [Single, hfilter]; rfl)
  · exact gives_failure

section Reading

variable {α : Type} {R : Node Nat → α → Prop}

theorem gives_optionally {read : Node Nat → Decode α} (hR : d.Follows R) (h : ∀ node, Gives (read node) (R node))
    (node : Node Nat) : Gives (d.optional read node) (Optionally d.IsNull R (some node)) := by
  rw [optional.eq_def]
  refine gives_bind (d.gives_follow node) fun target hleads => ?_
  -- What is read is the target, and `hR` carries the result back along the aliases.
  have hread : Gives (do return some (← read target)) (Optionally d.IsNull R (some node)) :=
    gives_bind (h target) fun a ha => gives_pure (.value (hR node target a hleads ha))
  split
  · next p cs =>
    split
    · next tag htag =>
      split
      · next hnull =>
        split
        · next hcs => exact gives_pure (.null ⟨p, cs, hleads, .inr ⟨hcs, by simpa [htag] using hnull⟩⟩)
        · exact gives_failure
      · exact hread
    · next htag =>
      split
      · next hcs =>
        refine gives_pure (.null ⟨p, cs, hleads, ?_⟩)
        rcases Bool.or_eq_true_iff.1 hcs with hempty | hnull
        · exact .inl ⟨List.isEmpty_iff.1 hempty, htag⟩
        · exact .inr ⟨hnull, by simp [htag]⟩
      · exact hread
  · exact hread

theorem gives_field {read : Node Nat → Decode α} (hR : d.Follows R) (h : ∀ node, Gives (read node) (R node))
    {node : Node Nat} {es : List (String × Node Nat)} (hes : d.Maps node es) (key : String) :
    Gives (d.optionalMember read key es) (d.view.Field node key R) := by
  rw [optionalMember.eq_def]
  refine gives_bind (gives_member? key es) fun found hfound => ?_
  split
  · exact gives_pure ⟨none, ⟨es, hes, hfound⟩, .missing⟩
  · next value =>
    exact (d.gives_optionally hR h value).imp fun a ha => ⟨some value, ⟨es, hes, hfound⟩, ha⟩

theorem gives_lists {read : Nat → Node Nat → Decode α} (h : ∀ depth node, Gives (read depth node) (R node))
    (depth : Nat) (node : Node Nat) :
    Gives (d.items depth read node) fun as => ∃ items, d.Lists node items ∧ List.Forall₂ R items as := by
  rw [items.eq_def]
  refine gives_bind (d.gives_follow node) fun target hleads => ?_
  split
  · next p ns depth =>
    exact Gives.imp (gives_forall₂ fun n _ => h depth n) fun as has => ⟨ns, .inl ⟨p, hleads⟩, has⟩
  · split
    · next hempty => exact gives_pure ⟨[], .inr ⟨d.isBlank_of_isEmptyScalar hleads hempty, rfl⟩, .nil⟩
    · exact gives_failure

end Reading

theorem gives_isMap (depth : Nat) (node : Node Nat) : Gives (d.fields depth node) fun _ => d.view.IsMap node := by
  rw [fields.eq_def]
  refine gives_bind (d.gives_entries node) fun es hes => (gives_any _).imp fun _ _ => ⟨es, hes⟩

theorem follows_isMap : d.Follows fun node (_ : Context) => d.view.IsMap node := by
  rintro node target _ hleads ⟨es, h⟩
  exact ⟨es, d.follows_maps _ _ _ hleads h⟩

theorem follows_field {α : Type} (key : String) (R : Node Nat → α → Prop) :
    d.Follows fun node => d.view.Field node key R := by
  rintro node target a hleads ⟨found, ⟨es, hes, hfound⟩, ha⟩
  exact ⟨found, ⟨es, d.follows_maps _ _ _ hleads hes, hfound⟩, ha⟩

theorem follows_fits : d.Follows d.view.Fits := fun _ _ _ hleads h =>
  ⟨d.follows_field _ _ _ _ _ hleads h.defaultVariant, d.follows_field _ _ _ _ _ hleads h.context,
    d.follows_field _ _ _ _ _ hleads h.variants⟩

end Document

end Yaml

open Yaml Decode

theorem Variant.gives_named (d : Document) (depth : Nat) (node : Node Nat) :
    Gives (Variant.ofYaml d depth node) fun v => d.view.Named node v.name := by
  rw [Variant.ofYaml.eq_def]
  refine gives_bind (d.gives_entries node) fun es hes => ?_
  refine gives_bind (Document.gives_member? "name" es) fun found hfound => ?_
  split
  · exact gives_failure
  · next value =>
    refine gives_bind (d.gives_text value) fun name hname => ?_
    exact gives_bind (gives_any _) fun context _ => gives_pure (.inl ⟨value, ⟨es, hes, hfound⟩, hname⟩)

namespace Config

theorem gives_fits (d : Document) (depth : Nat) (node : Node Nat) :
    Gives (Config.ofYaml d depth node) (d.view.Fits node) := by
  rw [Config.ofYaml.eq_def]
  refine gives_bind (d.gives_entries node) fun es hes => ?_
  refine gives_bind (d.gives_field d.follows_isText d.gives_text hes _) fun _ hdefault => ?_
  refine gives_bind (d.gives_field d.follows_isMap (d.gives_isMap _) hes _) fun _ hcontext => ?_
  have hitems := d.gives_lists (Variant.gives_named d) (depth - 1)
  refine gives_bind (d.gives_field d.follows_variants hitems hes _) fun _ hvariants => ?_
  exact gives_pure ⟨hdefault, hcontext, hvariants⟩

theorem fits_of_ofYaml? {d : Document} {config : Config} (h : ofYaml? (some d) = some config) :
    d.view.Fits d.root config ∨ d.IsNull d.root ∧ config = {} := by
  obtain ⟨found, hfound, rfl⟩ := Option.map_eq_some_iff.1 h
  obtain ⟨⟨found', left⟩, hrun, rfl⟩ := Option.map_eq_some_iff.1 hfound
  cases d.gives_optionally d.follows_fits (gives_fits d _) d.root _ _ _ hrun with
  | null hnull => exact .inr ⟨hnull, rfl⟩
  | value hfits => exact .inl hfits

end Config

/-! ### Decoding -/

/-- The document holds the config: it has the form, or there is nothing in it. Only in JSON can the fields of a
config stand in an array. -/
inductive Decoded (content : String) : Format → Config → Prop
  | blank {format : Format} (h : content.toList.all isSpace) : Decoded content format {}
  | yaml {d : Document} {config : Config} (hparse : Document.parse content = some (some d))
    (h : d.view.Fits d.root config) : Decoded content .yaml config
  | yamlEmpty (hparse : Document.parse content = some none) : Decoded content .yaml {}
  | yamlNull {d : Document} (hparse : Document.parse content = some (some d)) (h : d.IsNull d.root) :
    Decoded content .yaml {}
  | json {members : List (Option String × Json)} {config : Config}
    (hparse : Json.parse content = some (.object members)) (h : Json.view.Fits (.object members) config) :
    Decoded content .json config
  | jsonNull (hparse : Json.parse content = some .null) : Decoded content .json {}
  | jsonArray {items : List Json} {config : Config} (hparse : Json.parse content = some (.array items))
    (h : Json.Listed items config) : Decoded content .json config
  | toml {fields : Fields Toml} {config : Config} (hparse : Toml.parse content = some (.table false fields))
    (h : Toml.view.Fits (.table false fields) config) : Decoded content .toml config

/-- A config is only decoded from a document that has the form of a config. -/
theorem decoded_of_decode {format : Format} {content : String} {config : Config}
    (h : Config.decode format content = some config) : Decoded content format config := by
  rw [Config.decode.eq_def] at h
  split at h
  · next hblank =>
    cases h
    exact .blank hblank
  · cases format with
    | yaml =>
      obtain ⟨document, hparse, hdocument⟩ := Option.bind_eq_some_iff.1 h
      cases document with
      | none =>
        cases hdocument
        exact .yamlEmpty hparse
      | some d =>
        obtain hfits | ⟨hnull, rfl⟩ := Config.fits_of_ofYaml? hdocument
        · exact .yaml hparse hfits
        · exact .yamlNull hparse hnull
    | json =>
      obtain ⟨json, hparse, hjson⟩ := Option.bind_eq_some_iff.1 h
      cases json with
      | null =>
        cases hjson
        exact .jsonNull hparse
      | object members => exact .json hparse (Config.fits_of_ofJson? hjson)
      | array items => exact .jsonArray hparse (Config.listed_of_ofJson? hjson)
      | bool b => cases hjson
      | number n => cases hjson
      | string contents => cases hjson
    | toml =>
      obtain ⟨t, hparse, htoml⟩ := Option.bind_eq_some_iff.1 h
      obtain ⟨fields, rfl⟩ := Toml.table_of_parse hparse
      exact .toml hparse (Config.fits_of_ofToml? htoml)

theorem decoded_of_decode_card :
    let content := "default: wide\ncontext: \x7bsize: 1\x7d\nvariants:\n- name: wide\n"
    ∃ config, Config.decode .yaml content = some config ∧ config.defaultVariant = some "wide" ∧
      Decoded content .yaml config := by
  intro content
  have h : (Config.decode .yaml content).map Config.defaultVariant = some (some "wide") := by decide +kernel
  obtain ⟨config, hconfig, hdefault⟩ := Option.map_eq_some_iff.1 h
  exact ⟨config, hconfig, hdefault, decoded_of_decode hconfig⟩

/-- A document that is decoded although its default is a number, its context a string and its variants a string. -/
theorem decode_of_other_types :
    let content := "default: 5\ncontext: !!str\nvariants: !!str\n"
    (Yaml.parseValue content).map (fun v => ["default", "context", "variants"].map fun key => (v.atPath [key]).kind) =
        some ["number", "string", "string"] ∧
      (Config.decode .yaml content).map (fun c => (c.defaultVariant, c.context.map Fields.keys, c.variants.map List.length)) =
        some (some "5", some [], some 0) := by
  decide +kernel

end Inclusion
