import GrammarSampler.Proofs.Random.Accept

/-!
# How many words stand for a number

The words that stand for a number are a row of words without gaps. For each number below the bound
the row has the same length: the largest power of two by which the bound can be multiplied within a
word. All other words are drawn again.
-/

namespace GrammarSampler

namespace Width

variable {w : Width} {n i word : Nat}

/-- How many of the highest bits are zero in a word that holds `n`. -/
def leadingZeros (w : Width) (n : Nat) : Nat := (BitVec.ofNat w.bits n).clz.toNat

example : Width.w64.leadingZeros 3 = 62 ∧ Width.w32.leadingZeros 3 = 30 := by decide

theorem bits_pos (w : Width) : 0 < w.bits := by cases w <;> decide

theorem leadingZeros_eq (hn : 0 < n) (hlt : n < 2 ^ w.bits) :
    w.leadingZeros n = w.bits - (n.log2 + 1) := by
  have hnat : (BitVec.ofNat w.bits n).toNat = n := by
    rw [BitVec.toNat_ofNat, Nat.mod_eq_of_lt hlt]
  have hne : BitVec.ofNat w.bits n ≠ 0#w.bits := by
    intro hzero
    rw [hzero, BitVec.toNat_zero] at hnat
    omega
  have hlow := BitVec.two_pow_sub_clz_le_toNat_of_ne_zero w.bits_pos hne
  have hhigh := BitVec.toNat_lt_two_pow_sub_clz (x := BitVec.ofNat w.bits n)
  rw [hnat] at hlow hhigh
  rw [leadingZeros]
  generalize (BitVec.ofNat w.bits n).clz.toNat = zeros at hlow hhigh ⊢
  have hzeros : zeros < w.bits := by
    by_contra hle
    rw [Nat.sub_eq_zero_of_le (Nat.not_lt.1 hle)] at hhigh
    omega
  have hlog : n.log2 = w.bits - 1 - zeros := by
    refine (Nat.log2_eq_iff hn.ne').2 ⟨hlow, ?_⟩
    rwa [show w.bits - 1 - zeros + 1 = w.bits - zeros by omega]
  omega

theorem mul_two_pow_leadingZeros_le (hn : 0 < n) (hlt : n < 2 ^ w.bits) :
    n * 2 ^ w.leadingZeros n ≤ 2 ^ w.bits := by
  have hlog : n.log2 + 1 ≤ w.bits := (Nat.log2_lt hn.ne').2 hlt
  rw [leadingZeros_eq hn hlt]
  calc n * 2 ^ (w.bits - (n.log2 + 1))
      ≤ 2 ^ (n.log2 + 1) * 2 ^ (w.bits - (n.log2 + 1)) := Nat.mul_le_mul_right _ Nat.lt_log2_self.le
    _ = 2 ^ w.bits := by rw [← Nat.pow_add, Nat.add_sub_cancel' hlog]

theorem zone_eq (hn : 0 < n) (hlt : n < 2 ^ w.bits) :
    zone w.bits n = n * 2 ^ w.leadingZeros n - 1 := by
  rw [zone, Nat.shiftLeft_eq, leadingZeros_eq hn hlt]

/-! ## Rows of words -/

theorem accept?_eq_some_iff_between (hn : 0 < n) (hlt : n < 2 ^ w.bits) :
    accept? w.bits n word = some i ↔
      i * 2 ^ w.bits ≤ n * word ∧ n * word < i * 2 ^ w.bits + n * 2 ^ w.leadingZeros n := by
  have hpos : 0 < n * 2 ^ w.leadingZeros n := Nat.mul_pos hn (Nat.two_pow_pos _)
  have hle := mul_two_pow_leadingZeros_le hn hlt
  rw [accept?_eq_some_iff, zone_eq hn hlt, Nat.mul_comm word]
  generalize n * 2 ^ w.leadingZeros n = span at hpos hle ⊢
  generalize n * word = product
  constructor
  · rintro ⟨hzone, rfl⟩
    have hsplit := Nat.div_add_mod product (2 ^ w.bits)
    rw [Nat.mul_comm] at hsplit
    omega
  · rintro ⟨hlow, hhigh⟩
    obtain ⟨rest, rfl⟩ := Nat.exists_eq_add_of_le hlow
    have hrest : rest < 2 ^ w.bits := by omega
    rw [Nat.mul_comm i, Nat.mul_add_mod, Nat.mod_eq_of_lt hrest,
      Nat.mul_add_div (Nat.two_pow_pos _), Nat.div_eq_of_lt hrest]
    omega

/-- The first word that stands for `i`. -/
def firstWord (w : Width) (n i : Nat) : Nat := (i * 2 ^ w.bits) ⌈/⌉ n

theorem accept?_eq_some_iff_mem_Ico (hn : 0 < n) (hlt : n < 2 ^ w.bits) :
    accept? w.bits n word = some i ↔
      word ∈ Set.Ico (w.firstWord n i) (w.firstWord n i + 2 ^ w.leadingZeros n) := by
  have hfirst : ∀ v, w.firstWord n i ≤ v ↔ i * 2 ^ w.bits ≤ n * v :=
    fun v => ceilDiv_le_iff_le_mul hn
  rw [accept?_eq_some_iff_between hn hlt, Set.mem_Ico, hfirst]
  refine and_congr_right fun _ => ?_
  rcases Nat.lt_or_ge word (2 ^ w.leadingZeros n) with hword | hword
  · have hmul := Nat.mul_lt_mul_of_pos_left hword hn
    exact iff_of_true (by omega) (by omega)
  · obtain ⟨rest, rfl⟩ := Nat.exists_eq_add_of_le hword
    have hrest := hfirst rest
    rw [Nat.mul_add]
    omega

theorem lt_two_pow_of_accept? (hlt : n < 2 ^ w.bits) (hi : i < n)
    (h : accept? w.bits n word = some i) : word < 2 ^ w.bits := by
  have hn : 0 < n := by omega
  obtain ⟨-, hhigh⟩ := (accept?_eq_some_iff_between hn hlt).1 h
  have hle := mul_two_pow_leadingZeros_le hn hlt
  refine Nat.lt_of_mul_lt_mul_left (a := n) ?_
  calc n * word < i * 2 ^ w.bits + n * 2 ^ w.leadingZeros n := hhigh
    _ ≤ (i + 1) * 2 ^ w.bits := by rw [Nat.succ_mul]; omega
    _ ≤ n * 2 ^ w.bits := Nat.mul_le_mul_right _ hi

/-- Among the words of a width equally many stand for each number below the bound. -/
theorem ncard_accept? (hlt : n < 2 ^ w.bits) (hi : i < n) :
    {word | word < 2 ^ w.bits ∧ accept? w.bits n word = some i}.ncard =
      2 ^ w.leadingZeros n := by
  have hn : 0 < n := by omega
  have hrow : {word | word < 2 ^ w.bits ∧ accept? w.bits n word = some i} =
      Set.Ico (w.firstWord n i) (w.firstWord n i + 2 ^ w.leadingZeros n) := by
    ext word
    rw [← accept?_eq_some_iff_mem_Ico hn hlt]
    exact and_iff_right_of_imp (lt_two_pow_of_accept? hlt hi)
  rw [hrow, Set.ncard_Ico_nat, Nat.add_sub_cancel_left]

end Width

/-! ## The first draw -/

theorem Supply.horizon_pos (s : Supply) : 0 < s.horizon := by
  cases s with
  | script words => exact Nat.succ_pos _
  | stream =>
      rw [horizon, Keystream.period, Nat.one_shiftLeft]
      exact Nat.two_pow_pos _

namespace Source

variable {w : Width} {n i : Nat} {s : Source}

theorem belowWithin_mono {tries more : Nat} {r : Nat × Source} (hle : tries ≤ more)
    (h : s.belowWithin w n tries = some r) : s.belowWithin w n more = some r := by
  induction tries generalizing s more with
  | zero => cases h
  | succ tries ih =>
      obtain ⟨rest, rfl⟩ := Nat.exists_eq_add_of_le hle
      rw [Nat.succ_add_eq_add_succ, Nat.add_succ, belowWithin]
      rw [belowWithin] at h
      cases ha : accept? w.bits n (s.next w).1 with
      | some j => simpa only [ha] using h
      | none =>
          simp only [ha] at h ⊢
          exact ih (Nat.le_add_right _ _) h

/-- A draw takes no more than one word from what a source has left. -/
theorem horizon_le_succ (w : Width) (s : Source) :
    s.supply.horizon ≤ (s.next w).2.supply.horizon + 1 := by
  obtain ⟨supply, drawn32, drawn64⟩ := s
  cases supply with
  | script words => cases w <;> cases words <;> simp [next, next32, next64, Supply.next32,
      Supply.next64, Supply.horizon]
  | stream place => cases w <;> exact Nat.le_succ _

theorem below_of_accept? (h : accept? w.bits n (s.next w).1 = some i) :
    s.below w n = some (i, (s.next w).2) := by
  obtain ⟨tries, htries⟩ := Nat.exists_eq_succ_of_ne_zero s.supply.horizon_pos.ne'
  rw [below, htries, belowWithin]
  simp only [h]

/-- What comes after a word that does not count comes as if it had not been drawn. -/
theorem below_of_reject {r : Nat × Source} (h : accept? w.bits n (s.next w).1 = none)
    (hbelow : s.below w n = some r) : (s.next w).2.below w n = some r := by
  obtain ⟨tries, htries⟩ := Nat.exists_eq_succ_of_ne_zero s.supply.horizon_pos.ne'
  rw [below, htries, belowWithin] at hbelow
  simp only [h] at hbelow
  have hle := horizon_le_succ w s
  exact belowWithin_mono (by omega) hbelow

theorem Draws.drawn_lt {after : Source} (h : Draws w n s i after) :
    s.drawn32 + s.drawn64 < after.drawn32 + after.drawn64 := by
  have hnext (s : Source) :
      (s.next w).2.drawn32 + (s.next w).2.drawn64 = s.drawn32 + s.drawn64 + 1 := by
    cases w with
    | w32 => exact Nat.add_right_comm _ _ _
    | w64 => rfl
  induction h with
  | accepted => rw [hnext]; exact Nat.lt_succ_self _
  | rejected _ _ ih => rw [hnext] at ih; exact Nat.lt_of_succ_lt ih

end Source

end GrammarSampler
