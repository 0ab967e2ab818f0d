import DiceAlgebra.Proofs.Roller.Asking
import Mathlib.Data.List.Forall2

/-! Rollers that show only faces the dice have. The generator of random faces is one of them: it scales a word to a
number below the faces, whichever of its words it refuses on the way. -/
namespace DiceAlgebra

/-- The faces of a die are numbered from one. -/
def IsFace (faces value : UInt32) : Prop :=
  1 ≤ value ∧ value ≤ faces

theorem isFace_iff {faces value : UInt32} : IsFace faces value ↔ 1 ≤ value.toNat ∧ value.toNat ≤ faces.toNat :=
  and_congr UInt32.le_iff_toNat_le UInt32.le_iff_toNat_le

namespace Roller

variable {σ : Type} [Roller σ] {s t : σ} {faces value : UInt32}

/-- Whatever dice of two faces or more it is asked for from here on, the roller shows a face of each. -/
def Honest (s : σ) : Prop :=
  ∀ asked shown t, (∀ faces ∈ asked, 1 < faces) → Shows asked shown s t → List.Forall₂ IsFace asked shown

theorem honest_of_ready (ready : σ → Prop) (start : ready s)
    (step : ∀ faces s, ready s → 1 < faces → ∀ value t, rollDie? faces s = some (value, t) →
      IsFace faces value ∧ ready t) : Honest s := by
  intro asked shown t random shows
  induction shows with
  | nil s => exact .nil
  | cons head tail ih =>
    rw [List.forall_mem_cons] at random
    obtain ⟨face, between⟩ := step _ _ start random.1 _ _ head
    exact .cons face (ih between random.2)

theorem Honest.step (honest : Honest s) (random : 1 < faces) (shows : rollDie? faces s = some (value, t)) :
    IsFace faces value ∧ Honest t := by
  have alone := honest [faces] [value] t (by simpa using random) (.cons shows (.nil t))
  refine ⟨(List.forall₂_cons.mp alone).1, fun asked shown u random' later => ?_⟩
  have all := honest (faces :: asked) (value :: shown) u (List.forall_mem_cons.mpr ⟨random, random'⟩)
    (.cons shows later)
  exact (List.forall₂_cons.mp all).2

end Roller

namespace Wyrand

/-- The high half of a product of two 32-bit numbers is below each of them. -/
private theorem high_half_lt {word n : UInt32} (positive : 0 < n) :
    ((word.toUInt64 * n.toUInt64) >>> 32).toUInt32 < n := by
  have words := word.toNat_lt
  have below := n.toNat_lt
  have above : 0 < n.toNat := UInt32.lt_iff_toNat_lt.mp positive
  have product : word.toNat * n.toNat < 4294967296 * n.toNat := Nat.mul_lt_mul_of_pos_right words above
  have whole : (word.toUInt64 * n.toUInt64).toNat = word.toNat * n.toNat := by
    rw [UInt64.toNat_mul, UInt32.toNat_toUInt64, UInt32.toNat_toUInt64, Nat.mod_eq_of_lt (by omega)]
  have half : ((word.toUInt64 * n.toUInt64) >>> 32).toNat = word.toNat * n.toNat / 4294967296 := by
    rw [UInt64.toNat_shiftRight, whole, Nat.shiftRight_eq_div_pow]
    rfl
  rw [UInt32.lt_iff_toNat_lt, UInt64.toNat_toUInt32, half]
  omega

theorem belowFrom_lt {n : UInt32} (positive : 0 < n) (threshold : UInt32) (tries : Nat) (g : Wyrand) :
    (g.belowFrom n threshold tries).1 < n := by
  fun_induction belowFrom n threshold tries g with
  | case1 => exact high_half_lt positive
  | case2 _ _ _ _ _ _ _ ih => exact ih
  | case3 => exact high_half_lt positive

theorem below_lt {n : UInt32} (positive : 0 < n) (g : Wyrand) : (g.below n).1 < n := by
  rw [below]
  exact belowFrom_lt positive _ _ g

theorem isFace_rollDie {faces : UInt32} (random : 1 < faces) (g : Wyrand) : IsFace faces (g.rollDie faces).1 := by
  have index_lt := below_lt (UInt32.lt_trans (by decide) random) g
  rw [isFace_iff, rollDie, if_pos random]
  generalize g.below faces = drawn at index_lt
  obtain ⟨index, g⟩ := drawn
  change 1 ≤ (1 + index).toNat ∧ (1 + index).toNat ≤ faces.toNat
  have room : index.toNat < faces.toNat := UInt32.lt_iff_toNat_lt.mp index_lt
  have fits := faces.toNat_lt
  rw [UInt32.toNat_add, UInt32.toNat_one, Nat.mod_eq_of_lt (by omega)]
  omega

end Wyrand

namespace Source

theorem honest_random (g : Wyrand) : Roller.Honest (random g) := by
  refine Roller.honest_of_ready (fun s => ∃ g, s = random g) ⟨g, rfl⟩ ?_
  rintro faces _ ⟨g, rfl⟩ two value t ⟨⟩
  exact ⟨Wyrand.isFace_rollDie two g, _, rfl⟩

end Source
end DiceAlgebra
