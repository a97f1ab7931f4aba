import Inclusion.Proofs.Disk.Spelling
/-!
# What a store has kept

A store finds the configs that it keeps by the components of their paths, so what it has read with one spelling of a
path answers for every spelling. As long as the disk does not change that is what reading would give, unless the
spelling goes through a file (`ReadSince.load_eq_or`).
-/

namespace Inclusion

namespace ConfigStore

variable {disk : Disk} {before s : ConfigStore} {among : Path → Prop} {p q : Path} {config : Config}

theorem context_eq (disk : Disk) (p : Path) (variant : Option String) (s : ConfigStore) :
    s.context disk p variant = ((s.load disk p).1.map fun config => config.resolve variant, (s.load disk p).2) := by
  rw [context]
  split
  · next heq =>
    rw [heq]
    rfl
  · next heq =>
    rw [heq]
    rfl

theorem kept?_of_kept_eq_none (h : s.kept = none) (q : Path) : s.kept? q = none := by
  rw [kept?, h]
  rfl

theorem kept_load_of_eq_none (h : s.kept = none) (disk : Disk) (p : Path) : (s.load disk p).2.kept = none := by
  rw [load, kept?_of_kept_eq_none h]
  dsimp only
  split
  · rw [h]
    rfl
  · exact h

@[simp] theorem kept?_new (keeps : Bool) (q : Path) : (new keeps).kept? q = none := by
  cases keeps <;> rfl

/-- What is kept after a load was kept before it or is what was loaded. -/
theorem kept?_load (h : (s.load disk p).2.kept? q = some config) :
    s.kept? q = some config ∨ p.components = q.components ∧ Config.read disk p = .ok config := by
  rw [load] at h
  split at h
  · exact .inl h
  · split at h
    · next found hread =>
      cases hkept : s.kept with
      | none =>
        rw [kept?, hkept] at h
        cases h
      | some kept =>
        rw [kept?, hkept] at h
        by_cases hpath : p.components = q.components
        · right
          simp only [Option.map_some, Option.bind_some, List.find?_cons, hpath, decide_true, Option.some.injEq] at h
          exact ⟨hpath, h ▸ hread⟩
        · left
          simp only [Option.map_some, Option.bind_some, List.find?_cons, hpath, decide_false] at h
          rw [kept?, hkept]
          exact h
    · exact .inl h

/-- What the store keeps was kept before, or it was read since at one of some paths. -/
def ReadSince (disk : Disk) (s before : ConfigStore) (among : Path → Prop) : Prop :=
  ∀ q config, s.kept? q = some config →
    before.kept? q = some config ∨ ∃ p, among p ∧ p.components = q.components ∧ Config.read disk p = .ok config

/-- What the store keeps was read on the disk. -/
def ReadOn (disk : Disk) (s : ConfigStore) : Prop :=
  ∀ q config, s.kept? q = some config → ∃ p, p.components = q.components ∧ Config.read disk p = .ok config

theorem ReadSince.self (disk : Disk) (s : ConfigStore) (among : Path → Prop) : s.ReadSince disk s among :=
  fun _ _ h => .inl h

theorem ReadSince.new (disk : Disk) (keeps : Bool) (before : ConfigStore) (among : Path → Prop) :
    (new keeps).ReadSince disk before among := by
  intro q config h
  rw [kept?_new] at h
  cases h

theorem readOn_new (disk : Disk) (keeps : Bool) : (new keeps).ReadOn disk := by
  intro q config h
  rw [kept?_new] at h
  cases h

theorem ReadSince.load (h : s.ReadSince disk before among) (hp : among p) :
    (s.load disk p).2.ReadSince disk before among := by
  intro q config hkept
  cases kept?_load hkept with
  | inl hkept => exact h q config hkept
  | inr hread => exact .inr ⟨p, hp, hread⟩

theorem ReadOn.load (h : s.ReadOn disk) (p : Path) : (s.load disk p).2.ReadOn disk := by
  intro q config hkept
  cases kept?_load hkept with
  | inl hkept => exact h q config hkept
  | inr hread => exact ⟨p, hread⟩

/-- The error is that a path with a blank end leads through a file, and the store keeps the config of that file, which
can be read with another spelling of the path. -/
def Covers (disk : Disk) (s : ConfigStore) (e : ConfigError) : Prop :=
  ∃ p q config, e = .unreadable q .notADirectory ∧ s.kept? q = some config ∧ Config.read disk p = .ok config ∧
    p.components = q.components ∧ q.EndsBlank ∧ ¬ p.EndsBlank

theorem not_covers_of_kept_eq_none (h : s.kept = none) (disk : Disk) (e : ConfigError) : ¬ s.Covers disk e := by
  rintro ⟨p, q, config, -, hkept, -⟩
  rw [kept?_of_kept_eq_none h] at hkept
  cases hkept

theorem not_covers_new (keeps : Bool) (disk : Disk) (e : ConfigError) : ¬ (new keeps).Covers disk e := by
  rintro ⟨p, q, config, -, hkept, -⟩
  rw [kept?_new] at hkept
  cases hkept

/-- A load gives what reading gives, unless it covers an error with a config that was kept before. What was read since
covers none if the paths end like the one that is loaded. -/
theorem ReadSince.load_eq_or (h : s.ReadSince disk before among) (hbefore : before.ReadOn disk)
    (hblank : ∀ p, among p → p.components = q.components → q.EndsBlank → p.EndsBlank) :
    (s.load disk q).1 = Config.read disk q ∨ ∃ e, Config.read disk q = .error e ∧ before.Covers disk e := by
  rw [ConfigStore.load]
  split
  · next config hkept =>
    cases h q config hkept with
    | inl hkept =>
      obtain ⟨p, hpath, hread⟩ := hbefore q config hkept
      cases Config.read_of_components hpath hread with
      | inl hq => exact .inl hq.symm
      | inr hq =>
        have hends : ¬ (q.EndsBlank → p.EndsBlank) := by
          intro hends
          rw [Config.read_of_components_of_endsBlank hpath hends hread] at hq
          cases hq
        exact .inr ⟨_, hq, p, q, config, rfl, hkept, hread, hpath, Classical.not_imp.mp hends⟩
    | inr hsince =>
      obtain ⟨p, hp, hpath, hread⟩ := hsince
      exact .inl (Config.read_of_components_of_endsBlank hpath (hblank p hp hpath) hread).symm
  · left
    split
    · next hread => exact hread.symm
    · next hread => exact hread.symm

/-- Without configs from before, a load gives what reading gives. -/
theorem ReadSince.load_eq (h : s.ReadSince disk (.new false) among)
    (hblank : ∀ p, among p → p.components = q.components → q.EndsBlank → p.EndsBlank) :
    (s.load disk q).1 = Config.read disk q := by
  refine (h.load_eq_or (readOn_new disk false) hblank).resolve_right ?_
  rintro ⟨e, -, hcovers⟩
  exact not_covers_new false disk e hcovers

end ConfigStore

end Inclusion
