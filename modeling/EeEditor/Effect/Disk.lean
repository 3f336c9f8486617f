import Mathlib.Data.List.Infix
import Mathlib.Tactic.Common

/-!
# Programs on a disk

A location is the list of the names that lead to it from the root, and a program is the tree of what
it does next with each answer of the disk. A program stays within a directory when each of its
accesses does, whatever the answers are. It then changes nothing elsewhere.
-/

namespace EeEditor

abbrev Location := List String

inductive DiskProgram (β : Type) (ρ : Type) where
  | done (result : ρ)
  | read (file : Location) (next : Option β → DiskProgram β ρ)
  | list (dir : Location) (next : List String → DiskProgram β ρ)
  | write (file : Location) (content : β) (next : DiskProgram β ρ)
  | remove (file : Location) (next : DiskProgram β ρ)
  | removeAll (dir : Location) (next : DiskProgram β ρ)

/-- The files and their contents. A directory is there when a file is in it. -/
abbrev Disk (β : Type) := List (Location × β)

namespace DiskProgram

variable {β ρ ρ' : Type} {dir d : Location} {p : DiskProgram β ρ} {disk : Disk β}

@[grind =] def bind : DiskProgram β ρ → (ρ → DiskProgram β ρ') → DiskProgram β ρ'
  | done result, f => f result
  | read file next, f => read file fun content ↦ (next content).bind f
  | list dir next, f => list dir fun names ↦ (next names).bind f
  | write file content next, f => write file content (next.bind f)
  | remove file next, f => remove file (next.bind f)
  | removeAll dir next, f => removeAll dir (next.bind f)

instance : Monad (DiskProgram β) where
  pure := done
  bind := bind

/-- The names of the files and directories in a directory. -/
@[grind =] def namesIn (disk : Disk β) (dir : Location) : List String :=
  (disk.filterMap fun file ↦
    if dir <+: file.1 then file.1[dir.length]? else none).dedup

@[grind =] def run : DiskProgram β ρ → Disk β → ρ × Disk β
  | done result, disk => (result, disk)
  | read file next, disk => (next (disk.lookup file)).run disk
  | list dir next, disk => (next (namesIn disk dir)).run disk
  | write file content next, disk =>
    next.run (disk.filter (·.1 ≠ file) ++ [(file, content)])
  | remove file next, disk => next.run (disk.filter (·.1 ≠ file))
  | removeAll dir next, disk => next.run (disk.filter (¬ dir <+: ·.1))

/-- Every access is to the directory or to what is in it. -/
inductive Within (d : Location) : DiskProgram β ρ → Prop
  | done (result : ρ) : Within d (done result)
  | read {file : Location} {next : Option β → DiskProgram β ρ} (inside : d <+: file)
      (within : ∀ content, Within d (next content)) : Within d (read file next)
  | list {dir : Location} {next : List String → DiskProgram β ρ} (inside : d <+: dir)
      (within : ∀ names, Within d (next names)) : Within d (list dir next)
  | write {file : Location} {content : β} {next : DiskProgram β ρ} (inside : d <+: file)
      (within : Within d next) : Within d (write file content next)
  | remove {file : Location} {next : DiskProgram β ρ} (inside : d <+: file)
      (within : Within d next) : Within d (remove file next)
  | removeAll {dir : Location} {next : DiskProgram β ρ} (inside : d <+: dir)
      (within : Within d next) : Within d (removeAll dir next)

theorem Within.bind {f : ρ → DiskProgram β ρ'} (h : Within d p)
    (hf : ∀ result, Within d (f result)) :
    Within d (p >>= f) := by
  change Within d (p.bind f)
  induction h with
  | done result => exact hf result
  | read inside _ ih => exact .read inside ih
  | list inside _ ih => exact .list inside ih
  | write inside _ ih => exact .write inside ih
  | remove inside _ ih => exact .remove inside ih
  | removeAll inside _ ih => exact .removeAll inside ih

theorem within_pure (result : ρ) : Within d (pure result : DiskProgram β ρ) := .done result

/-- The files that are not in the directory. -/
@[grind =]
def outside (disk : Disk β) (d : Location) : Disk β := disk.filter fun file ↦ ¬ d <+: file.1

theorem outside_filter {keep : Location × β → Bool}
    (h : ∀ file, ¬ d <+: file.1 → keep file = true) :
    outside (disk.filter keep) d = outside disk d := by
  rw [outside, outside, List.filter_filter]
  refine List.filter_congr fun file _ ↦ ?_
  by_cases hfile : d <+: file.1
  · simp [hfile]
  · simp [hfile, h file hfile]

/-- A program that stays within a directory changes no file elsewhere. -/
theorem Within.outside_run (h : Within d p) (disk : Disk β) :
    outside (p.run disk).2 d = outside disk d := by
  induction h generalizing disk with
  | done => rfl
  | read _ _ ih => exact ih _ disk
  | list _ _ ih => exact ih _ disk
  | write inside _ ih =>
    rw [run, ih, outside, List.filter_append, ← outside, outside_filter]
    · simp [inside]
    · rintro file hfile
      simp only [ne_eq, decide_eq_true_eq]
      rintro rfl
      exact hfile inside
  | remove inside _ ih =>
    rw [run, ih, outside_filter]
    rintro file hfile
    simp only [ne_eq, decide_eq_true_eq]
    rintro rfl
    exact hfile inside
  | removeAll inside _ ih =>
    rw [run, ih, outside_filter]
    rintro file hfile
    simp only [decide_eq_true_eq]
    exact fun hdir ↦ hfile (inside.trans hdir)

end DiskProgram

end EeEditor
