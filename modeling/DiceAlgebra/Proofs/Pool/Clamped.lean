import DiceAlgebra.Arithmetic

/-! Sums that are clamped on the way. What goes up and what goes down is added up apart: the order of the counts
has a say only if both happen and one of the two sums is out of range by itself. -/
namespace DiceAlgebra

/-- Counts added up from the left, each partial sum clamped. -/
def clampedSum (counts : List Int32) : Int32 :=
  counts.foldl saturatingAdd 0

def gains (counts : List Int32) : Int :=
  counts.foldr (fun c sum => max c.toInt 0 + sum) 0

def losses (counts : List Int32) : Int :=
  counts.foldr (fun c sum => min c.toInt 0 + sum) 0

/-- The counts have one sign, or neither the positive nor the negative ones leave the range when added up. -/
def OrderFree (counts : List Int32) : Prop :=
  losses counts = 0 ∨ gains counts = 0 ∨ (gains counts ≤ 2147483647 ∧ -2147483648 ≤ losses counts)

@[simp] theorem gains_nil : gains [] = 0 :=
  rfl

@[simp] theorem losses_nil : losses [] = 0 :=
  rfl

@[simp] theorem gains_cons (c : Int32) (cs : List Int32) :
    gains (c :: cs) = max c.toInt 0 + gains cs :=
  rfl

@[simp] theorem losses_cons (c : Int32) (cs : List Int32) :
    losses (c :: cs) = min c.toInt 0 + losses cs :=
  rfl

theorem gains_nonneg (cs : List Int32) : 0 ≤ gains cs := by
  induction cs with
  | nil => exact Int.le_refl 0
  | cons c cs ih =>
    rw [gains_cons]
    omega

theorem losses_nonpos (cs : List Int32) : losses cs ≤ 0 := by
  induction cs with
  | nil => exact Int.le_refl 0
  | cons c cs ih =>
    rw [losses_cons]
    omega

theorem gains_perm {cs ds : List Int32} (h : cs.Perm ds) : gains cs = gains ds := by
  unfold gains
  apply h.foldr_eq'
  intros
  omega

theorem losses_perm {cs ds : List Int32} (h : cs.Perm ds) : losses cs = losses ds := by
  unfold losses
  apply h.foldr_eq'
  intros
  omega

theorem zero_saturatingAdd (c : Int32) : saturatingAdd 0 c = c := by
  rw [saturatingAdd, Int32.toInt_zero, Int.zero_add, saturate_toInt]

theorem saturatingAdd_zero (c : Int32) : saturatingAdd c 0 = c := by
  rw [saturatingAdd, Int32.toInt_zero, Int.add_zero, saturate_toInt]

/-- One clamp at the end does the same when nothing turns around after a clamp on the way. -/
theorem toInt_foldl_saturatingAdd {cs : List Int32} {start : Int32}
    (h : losses cs = 0 ∨ gains cs = 0 ∨
      (start.toInt + gains cs ≤ 2147483647 ∧ -2147483648 ≤ start.toInt + losses cs)) :
    (cs.foldl saturatingAdd start).toInt =
      max (-2147483648) (min (start.toInt + gains cs + losses cs) 2147483647) := by
  induction cs generalizing start with
  | nil =>
    have bounds := toInt_bounds start
    rw [Int32.toInt_minValue, Int32.toInt_maxValue] at bounds
    rw [List.foldl_nil, gains_nil, losses_nil]
    omega
  | cons c cs ih =>
    have up := gains_nonneg cs
    have down := losses_nonpos cs
    have next : (saturatingAdd start c).toInt =
        max (-2147483648) (min (start.toInt + c.toInt) 2147483647) := toInt_saturate _
    have bounds := toInt_bounds start
    rw [Int32.toInt_minValue, Int32.toInt_maxValue] at bounds
    rw [gains_cons, losses_cons] at h
    rw [List.foldl_cons, gains_cons, losses_cons, ih (by omega), next]
    omega

theorem clampedSum_eq {cs : List Int32} (h : OrderFree cs) :
    clampedSum cs = saturate (gains cs + losses cs) := by
  have bounded : losses cs = 0 ∨ gains cs = 0 ∨
      ((0 : Int32).toInt + gains cs ≤ 2147483647 ∧ -2147483648 ≤ (0 : Int32).toInt + losses cs) := by
    rwa [Int32.toInt_zero, Int.zero_add, Int.zero_add]
  rw [← Int32.toInt_inj, toInt_saturate, clampedSum, toInt_foldl_saturatingAdd bounded,
    Int32.toInt_zero, Int.zero_add]

theorem clampedSum_perm {cs ds : List Int32} (free : OrderFree cs) (h : cs.Perm ds) :
    clampedSum cs = clampedSum ds := by
  have free' : OrderFree ds := by
    unfold OrderFree
    rw [← gains_perm h, ← losses_perm h]
    exact free
  rw [clampedSum_eq free, clampedSum_eq free', gains_perm h, losses_perm h]

def rising (cs : List Int32) : List Int32 :=
  cs.filter fun c => 0 ≤ c.toInt

def falling (cs : List Int32) : List Int32 :=
  cs.filter fun c => !decide (0 ≤ c.toInt)

theorem sums_rising (cs : List Int32) : gains (rising cs) = gains cs ∧ losses (rising cs) = 0 := by
  induction cs with
  | nil => exact ⟨rfl, rfl⟩
  | cons c cs ih =>
    rw [rising] at ih ⊢
    by_cases up : 0 ≤ c.toInt
    · rw [List.filter_cons_of_pos (by simpa using up), gains_cons, losses_cons, gains_cons, ih.1, ih.2]
      omega
    · rw [List.filter_cons_of_neg (by simpa using up), gains_cons, ih.1, ih.2]
      omega

theorem sums_falling (cs : List Int32) : gains (falling cs) = 0 ∧ losses (falling cs) = losses cs := by
  induction cs with
  | nil => exact ⟨rfl, rfl⟩
  | cons c cs ih =>
    rw [falling] at ih ⊢
    by_cases up : 0 ≤ c.toInt
    · rw [List.filter_cons_of_neg (by simpa using up), losses_cons, ih.1, ih.2]
      omega
    · rw [List.filter_cons_of_pos (by simpa using up), gains_cons, losses_cons, losses_cons, ih.1, ih.2]
      omega

/-- If going up first and going down first come to the same, so does every other order. -/
theorem orderFree_of_clampedSum_eq {cs : List Int32}
    (h : clampedSum (rising cs ++ falling cs) = clampedSum (falling cs ++ rising cs)) : OrderFree cs := by
  have up := gains_nonneg cs
  have down := losses_nonpos cs
  rcases sums_rising cs with ⟨gains_up, losses_up⟩
  rcases sums_falling cs with ⟨gains_down, losses_down⟩
  have same := congrArg Int32.toInt h
  rw [clampedSum, clampedSum, List.foldl_append, List.foldl_append] at same
  rw [toInt_foldl_saturatingAdd (Or.inr (Or.inl gains_down)),
    toInt_foldl_saturatingAdd (Or.inl losses_up), toInt_foldl_saturatingAdd (Or.inl losses_up),
    toInt_foldl_saturatingAdd (Or.inr (Or.inl gains_down)), gains_up, losses_up, gains_down,
    losses_down, Int32.toInt_zero] at same
  unfold OrderFree
  omega

end DiceAlgebra
