import Inclusion.Proofs.Component.Kept
/-!
# A store over time

A store is asked for configs and contexts again and again, while files are written and removed between the loads. `ask`
is one load, with the disk as it is at that moment, and `run` is a list of them. A store that keeps what it has read
takes the first load of a path that succeeds for all later ones (`kept?_run`). As everywhere, two spellings with the same
components are one path.
-/

namespace Inclusion

namespace ConfigStore

/-- What is asked of a path: its config, or the context of a variant. -/
inductive Request
  | config
  | context (variant : Option String)
  deriving DecidableEq, Repr

inductive Answer
  | config (answer : Except ConfigError Config)
  | context (answer : Except ConfigError Context)

/-- The answer to a request when reading the config gave this. -/
def Request.answer (found : Except ConfigError Config) : Request → Answer
  | config => .config found
  | context variant => .context (found.map fun config => config.resolve variant)

def Answer.succeeds : Answer → Bool
  | config answer => answer.isOk
  | context answer => answer.isOk

/-- A load of a path, and the disk at the moment when it is made. -/
structure Load where
  disk : Disk
  path : Path
  request : Request

/-- What reading the path gives at that moment. -/
def Load.read (l : Load) : Except ConfigError Config :=
  Config.read l.disk l.path

/-- The answer to a load, and the store after it. -/
def ask (s : ConfigStore) (l : Load) : Answer × ConfigStore :=
  match l.request with
  | .config => (.config (s.load l.disk l.path).1, (s.load l.disk l.path).2)
  | .context variant => (.context (s.context l.disk l.path variant).1, (s.context l.disk l.path variant).2)

/-- The store after loads, one after another. -/
def run (s : ConfigStore) (loads : List Load) : ConfigStore :=
  loads.foldl (fun s l => (s.ask l).2) s

/-- The first load of a path that succeeds, when loads are made one after another. -/
def firstSuccess (p : Path) (s : ConfigStore) : List Load → Option Load
  | [] => none
  | l :: rest =>
    if l.path.components = p.components ∧ (s.ask l).1.succeeds then some l else firstSuccess p (s.ask l).2 rest

variable {s : ConfigStore} {l : Load} {p q : Path} {config : Config}

/-! ### One load -/

theorem ask_eq (s : ConfigStore) (l : Load) :
    s.ask l = (l.request.answer (s.load l.disk l.path).1, (s.load l.disk l.path).2) := by
  rw [ask]
  split
  · next hrequest =>
    rw [hrequest]
    rfl
  · next hrequest =>
    rw [hrequest, context_eq]
    rfl

theorem Request.succeeds_answer (found : Except ConfigError Config) (r : Request) :
    (r.answer found).succeeds = found.isOk := by
  cases r with
  | config => rfl
  | context variant => cases found <;> rfl

theorem kept?_of_components (h : p.components = q.components) (s : ConfigStore) : s.kept? p = s.kept? q := by
  rw [kept?, kept?, h]

theorem ask_of_kept (h : s.kept? l.path = some config) : s.ask l = (l.request.answer (.ok config), s) := by
  rw [ask_eq, load, h]

theorem ask_of_read_ok (h : s.kept? l.path = none) (hread : l.read = .ok config) :
    s.ask l = (l.request.answer (.ok config), ⟨s.kept.map ((l.path.components, config) :: ·)⟩) := by
  rw [Load.read] at hread
  rw [ask_eq, load, h]
  dsimp only
  rw [hread]

theorem ask_of_read_error {e : ConfigError} (h : s.kept? l.path = none) (hread : l.read = .error e) :
    s.ask l = (l.request.answer (.error e), s) := by
  rw [Load.read] at hread
  rw [ask_eq, load, h]
  dsimp only
  rw [hread]

/-- A load of a path that nothing is kept for answers what reading gives at that moment. -/
theorem ask_of_kept_eq_none (h : s.kept? l.path = none) : (s.ask l).1 = l.request.answer l.read := by
  cases hread : l.read with
  | ok config => rw [ask_of_read_ok h hread]
  | error e => rw [ask_of_read_error h hread]

/-- A load that fails leaves the store as it was. -/
theorem ask_of_fails (h : (s.ask l).1.succeeds = false) : (s.ask l).2 = s := by
  cases hkept : s.kept? l.path with
  | some config => rw [ask_of_kept hkept]
  | none =>
    cases hread : l.read with
    | error e => rw [ask_of_read_error hkept hread]
    | ok config =>
      rw [ask_of_read_ok hkept hread, Request.succeeds_answer] at h
      cases h

/-- A load leaves what is kept for other paths as it was. -/
theorem kept?_ask_of_ne (h : q.components ≠ l.path.components) : (s.ask l).2.kept? q = s.kept? q := by
  cases hkept : s.kept? l.path with
  | some config => rw [ask_of_kept hkept]
  | none =>
    cases hread : l.read with
    | error e => rw [ask_of_read_error hkept hread]
    | ok config =>
      rw [ask_of_read_ok hkept hread]
      cases hall : s.kept with
      | none => rw [kept?, kept?, hall, Option.map_none]
      | some kept =>
        rw [kept?, kept?, hall, Option.map_some, Option.bind_some, Option.bind_some,
          List.find?_cons_of_neg (by simpa using h.symm)]

theorem isSome_kept_ask (h : s.kept.isSome) (l : Load) : (s.ask l).2.kept.isSome := by
  cases hkept : s.kept? l.path with
  | some config =>
    rw [ask_of_kept hkept]
    exact h
  | none =>
    cases hread : l.read with
    | error e =>
      rw [ask_of_read_error hkept hread]
      exact h
    | ok config =>
      rw [ask_of_read_ok hkept hread, Option.isSome_map]
      exact h

/-- The first load of a path that succeeds is what the store keeps for it. -/
theorem kept?_ask_of_succeeds (hkeeps : s.kept.isSome) (hkept : s.kept? p = none)
    (hpath : l.path.components = p.components) (h : (s.ask l).1.succeeds) :
    ∃ config, l.read = .ok config ∧ (s.ask l).2.kept? p = some config := by
  have hnone : s.kept? l.path = none := (kept?_of_components hpath s).trans hkept
  cases hread : l.read with
  | error e =>
    rw [ask_of_read_error hnone hread, Request.succeeds_answer] at h
    cases h
  | ok config =>
    obtain ⟨kept, hall⟩ := Option.isSome_iff_exists.mp hkeeps
    refine ⟨config, rfl, ?_⟩
    rw [ask_of_read_ok hnone hread, kept?, hall, Option.map_some, Option.bind_some,
      List.find?_cons_of_pos (by simpa using hpath), Option.map_some]

/-! ### Many loads -/

theorem run_cons (s : ConfigStore) (l : Load) (rest : List Load) : s.run (l :: rest) = (s.ask l).2.run rest :=
  List.foldl_cons ..

/-- What is kept for a path stays the same from then on. -/
theorem kept?_run_of_kept (h : s.kept? p = some config) (loads : List Load) : (s.run loads).kept? p = some config := by
  induction loads generalizing s with
  | nil => exact h
  | cons l rest ih =>
    rw [run_cons]
    apply ih
    by_cases hpath : p.components = l.path.components
    · rw [ask_of_kept ((kept?_of_components hpath s).symm.trans h)]
      exact h
    · rw [kept?_ask_of_ne hpath]
      exact h

/-- After any loads, a store that keeps what it reads keeps for a path what the first success has read. -/
theorem kept?_run (hkeeps : s.kept.isSome) (hkept : s.kept? p = none) (loads : List Load) :
    match firstSuccess p s loads with
    | some first => ∃ config, first.read = .ok config ∧ (s.run loads).kept? p = some config
    | none => (s.run loads).kept? p = none := by
  induction loads generalizing s with
  | nil => exact hkept
  | cons l rest ih =>
    rw [firstSuccess, run_cons]
    by_cases hfirst : l.path.components = p.components ∧ (s.ask l).1.succeeds
    · rw [if_pos hfirst]
      obtain ⟨config, hread, hafter⟩ := kept?_ask_of_succeeds hkeeps hkept hfirst.1 hfirst.2
      exact ⟨config, hread, kept?_run_of_kept hafter rest⟩
    · rw [if_neg hfirst]
      refine ih (isSome_kept_ask hkeeps l) ?_
      by_cases hpath : p.components = l.path.components
      · rw [ask_of_fails (Bool.eq_false_iff.mpr fun h => hfirst ⟨hpath.symm, h⟩)]
        exact hkept
      · rw [kept?_ask_of_ne hpath]
        exact hkept

theorem components_of_firstSuccess {loads : List Load} {first : Load} (h : firstSuccess p s loads = some first) :
    first.path.components = p.components := by
  induction loads generalizing s with
  | nil => cases h
  | cons l rest ih =>
    rw [firstSuccess] at h
    split at h
    · next hfirst =>
      cases h
      exact hfirst.1
    · exact ih h

theorem ask_new_false (l : Load) : (new false).ask l = (l.request.answer l.read, new false) := by
  cases hread : l.read with
  | ok config =>
    rw [ask_of_read_ok (kept?_new false l.path) hread]
    rfl
  | error e => rw [ask_of_read_error (kept?_new false l.path) hread]

theorem run_new_false (loads : List Load) : (new false).run loads = new false := by
  induction loads with
  | nil => rfl
  | cons l rest ih => rw [run_cons, ask_new_false, ih]

/-- What a store answers after any loads, each made on a disk of its own moment. A store that keeps what it reads gives
the config that the first successful load of the path has read, whatever the disk is now; with the spelling of this load
the same was to be read at that moment, unless it goes through the file. As long as no load of the path has succeeded the
store reads. A load that fails changes nothing, and no load changes what is kept for another path. A store that keeps
nothing reads every time. -/
theorem ask_run (earlier : List Load) (l : Load) :
    let s := (new true).run earlier
    (∀ first, firstSuccess l.path (new true) earlier = some first → ∃ config,
        first.read = .ok config ∧ s.ask l = (l.request.answer (.ok config), s) ∧
        (Config.read first.disk l.path = .ok config ∨
          Config.read first.disk l.path = .error (.unreadable l.path .notADirectory))) ∧
      (firstSuccess l.path (new true) earlier = none → (s.ask l).1 = l.request.answer l.read) ∧
      ((s.ask l).1.succeeds = false → (s.ask l).2 = s) ∧
      (∀ q : Path, q.components ≠ l.path.components → (s.ask l).2.kept? q = s.kept? q) ∧
      ((new false).run earlier).ask l = (l.request.answer l.read, new false) := by
  intro s
  have hkept := kept?_run (s := new true) rfl (kept?_new true l.path) earlier
  refine ⟨fun first hfirst => ?_, fun hfirst => ?_, ask_of_fails, fun q => kept?_ask_of_ne, ?_⟩
  · rw [hfirst] at hkept
    obtain ⟨config, hread, hkept⟩ := hkept
    exact ⟨config, hread, ask_of_kept hkept, Config.read_of_components (components_of_firstSuccess hfirst) hread⟩
  · rw [hfirst] at hkept
    exact ask_of_kept_eq_none hkept
  · rw [run_new_false, ask_new_false]

/-- The file is missing at the first load, it is there at the second one and removed before the third one. -/
example :
    let load (files : List (OsString × FileTree)) : Load := ⟨⟨.directory files, []⟩, ⟨"c.yml"⟩, .context none⟩
    let s := (new true).run [load [], load [("c.yml", .text "")]]
    (s.ask (load [])).1 = .context (.ok [("variant", .null)]) := by
  rfl

end ConfigStore

end Inclusion
