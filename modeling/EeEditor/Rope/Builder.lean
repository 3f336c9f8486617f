import EeEditor.Rope.Synthesize

/-!
# Building deltas

The model of `xi-rope/src/delta/builder.rs`. The intervals that are replaced must come in order: the
assertion of `delete` is `none`. What is built from intervals in order is a well-formed delta.
-/

namespace EeEditor

variable {α : Type}

structure DeltaBuilder (α : Type) where
  els : List (DeltaElement α)
  baseLen : ℕ
  lastOffset : ℕ

namespace DeltaBuilder

def new (baseLen : ℕ) : DeltaBuilder α := ⟨[], baseLen, 0⟩

def delete (self : DeltaBuilder α) (start end_ : ℕ) : Option (DeltaBuilder α) :=
  if self.lastOffset ≤ start then
    some { self with
      els := if start > self.lastOffset then self.els ++ [.copy self.lastOffset start] else self.els
      lastOffset := end_ }
  else none

def replace (self : DeltaBuilder α) (start end_ : ℕ) (rope : List α) : Option (DeltaBuilder α) := do
  let self ← self.delete start end_
  return if rope.isEmpty then self else { self with els := self.els ++ [.insert rope] }

def build (self : DeltaBuilder α) : Delta α where
  els := if self.lastOffset < self.baseLen then
    self.els ++ [.copy self.lastOffset self.baseLen] else self.els
  baseLen := self.baseLen

/-- The sections so far are in order and end by the last offset. -/
structure Inv (builder : DeltaBuilder α) : Prop where
  ascending : Ascending 0 builder.els builder.lastOffset
  le : builder.lastOffset ≤ builder.baseLen

variable {self self' : DeltaBuilder α}

theorem inv_new (baseLen : ℕ) : Inv (new baseLen : DeltaBuilder α) := ⟨Nat.le_refl 0, Nat.zero_le _⟩

end DeltaBuilder

theorem Ascending.append_copy {els : List (DeltaElement α)} {p q e : ℕ} (h : Ascending p els q)
    (hlt : q < e) : Ascending p (els ++ [.copy q e]) e := by
  induction els generalizing p with
  | nil => exact ⟨h, hlt, Nat.le_refl e⟩
  | cons el els ih =>
    cases el with
    | copy b e' => exact ⟨h.1, h.2.1, ih h.2.2⟩
    | insert n => exact ⟨h.1, ih h.2⟩

namespace DeltaBuilder

variable {self self' : DeltaBuilder α} {start end_ : ℕ} {rope : List α}

/-- An interval that does not begin before the last offset can be replaced. -/
theorem Inv.replace (h : Inv self) (hstart : self.lastOffset ≤ start) (hle : start ≤ end_)
    (hend : end_ ≤ self.baseLen) (rope : List α) :
    ∃ self', self.replace start end_ rope = some self' ∧ Inv self' ∧ self'.lastOffset = end_ ∧
      self'.baseLen = self.baseLen := by
  have hcopied : Ascending 0 (if start > self.lastOffset then
      self.els ++ [.copy self.lastOffset start] else self.els) start := by
    split
    · rename_i hlt
      exact h.ascending.append_copy hlt
    · exact h.ascending.mono hstart
  rw [DeltaBuilder.replace, delete, if_pos hstart, Option.bind_eq_bind, Option.bind_some]
  cases rope with
  | nil => exact ⟨_, rfl, ⟨hcopied.mono hle, hend⟩, rfl, rfl⟩
  | cons a rope =>
    have hinserted := Ascending.append_insert (List.cons_ne_nil a rope) (hcopied.mono hle)
    exact ⟨_, rfl, ⟨hinserted, hend⟩, rfl, rfl⟩

theorem Inv.build (h : Inv self) : self.build.WellFormed ∧ self.build.baseLen = self.baseLen := by
  refine ⟨?_, rfl⟩
  rw [Delta.WellFormed, DeltaBuilder.build]
  dsimp only
  split
  · rename_i hlt
    exact h.ascending.append_copy hlt
  · exact h.ascending.mono h.le

end DeltaBuilder

end EeEditor
