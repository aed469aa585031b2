import Mathlib.Analysis.SpecialFunctions.Log.Base
import VectorSearch.Hnsw.InsertionFrame

/-! # Levels over the reals

The level of a node is `-ln u / ln M` for a draw `u`, cut to an `int`.  Here the constructor's check
of `M`, the multiplier `1 / ln M` and `randomLevel` are embedded over the real numbers, where a
division by zero and a conversion out of range have no result.

For `M` from 2 to 128 the level is the integer logarithm of `1 / u` to the base `M`
(`randomLevel_eq`), and then every node but the first has a neighbour on layer 0 (`Linked`).  The
constructor accepts `M = 1` too, where there is no multiplier, and because it computes `M * 2` modulo
`2 ^ 64` it accepts some `M` from `2 ^ 63` on, where a level 1 asks for too many words.
`levelsDefined_iff` says so. -/

namespace VectorSearch.Hnsw

namespace Levels

/-- The constructor's check of `M`, with `M * 2` computed in 64 bits. -/
def Accepts (M : ℕ) : Prop := M < 2 ^ 64 ∧ M ≠ 0 ∧ M * 2 % 2 ^ 64 ≤ kMaxDegree

instance (M : ℕ) : Decidable (Accepts M) :=
  inferInstanceAs (Decidable (M < 2 ^ 64 ∧ M ≠ 0 ∧ M * 2 % 2 ^ 64 ≤ kMaxDegree))

/-- `levelMult_`, unless it would divide by zero. -/
noncomputable def levelMult (M : ℕ) : Option ℝ :=
  if Real.log M = 0 then none else some (1 / Real.log M)

/-- The smallest positive double is `2 ^ -1074`. -/
def doubleExp : ℕ := 1074

/-- What `dis(rng_)` may return: a double in [0, 1). -/
def IsDraw (u : ℝ) : Prop := ∃ m : ℕ, m < 2 ^ doubleExp ∧ u = m / 2 ^ doubleExp

/-- `std::numeric_limits<double>::min()` -/
noncomputable def doubleMin : ℝ := 1 / 2 ^ 1022

/-- `static_cast<int>`: cut off the fraction; the result must be an `int`. -/
noncomputable def castInt (x : ℝ) : Option ℤ :=
  let z := if 0 ≤ x then ⌊x⌋ else ⌈x⌉
  if -2 ^ 31 ≤ z ∧ z < 2 ^ 31 then some z else none

/-- `randomLevel`, for a draw `u`. -/
noncomputable def randomLevel (M : ℕ) (u : ℝ) : Option ℤ := do
  let mult ← levelMult M
  let u := if u ≤ 0 then doubleMin else u
  castInt (-Real.log u * mult)

/-- The levels that can be drawn. -/
def drawn (M : ℕ) : Set ℤ := {level | ∃ u, IsDraw u ∧ randomLevel M u = some level}

/-- The words of `linksUpper_[id].assign(level * strideUpper_, 0)`, if a vector can have that many. -/
def assignUpper (M : ℕ) (level : ℤ) : Option ℕ :=
  if 0 < level then
    let n := level.toNat * ((M + 1) % 2 ^ 64) % 2 ^ 64
    if n < 2 ^ 61 then some n else none
  else some 0

theorem accepts_iff {M : ℕ} : Accepts M ↔ 1 ≤ M ∧ M ≤ 128 ∨ 2 ^ 63 ≤ M ∧ M ≤ 2 ^ 63 + 128 := by
  unfold Accepts kMaxDegree
  omega

/-! ### What is drawn -/

theorem levelMult_eq {M : ℕ} (hM : 2 ≤ M) : levelMult M = some (1 / Real.log M) := by
  have hlog : 0 < Real.log M := Real.log_pos (by exact_mod_cast hM)
  exact if_neg hlog.ne'

theorem levelMult_one : levelMult 1 = none := by
  rw [levelMult, Nat.cast_one, Real.log_one, if_pos rfl]

/-- The level of a positive draw is an integer logarithm. -/
theorem randomLevel_eq {M : ℕ} (hM : 2 ≤ M) {u : ℝ} (hpos : 0 < u) (hlt : u < 1)
    (hint : Int.log M u⁻¹ < 2 ^ 31) : randomLevel M u = some (Int.log M u⁻¹) := by
  have hlogM : 0 < Real.log M := Real.log_pos (by exact_mod_cast hM)
  have hlogu : Real.log u < 0 := Real.log_neg hpos hlt
  have hquot : -Real.log u * (1 / Real.log M) = Real.logb M u⁻¹ := by
    rw [Real.logb_inv, Real.logb, mul_one_div, neg_div]
  have hnonneg : 0 ≤ Real.logb M u⁻¹ := by
    rw [← hquot]
    exact mul_nonneg (by linarith) (by positivity)
  have hfloor : ⌊Real.logb M u⁻¹⌋ = Int.log M u⁻¹ :=
    Real.floor_logb_natCast (inv_pos.mpr hpos).le
  have hlow : 0 ≤ Int.log M u⁻¹ := hfloor ▸ Int.floor_nonneg.mpr hnonneg
  simp only [randomLevel, levelMult_eq hM, if_neg (not_le.mpr hpos), Option.bind_eq_bind,
    Option.bind_some, hquot, castInt, if_pos hnonneg, hfloor]
  rw [if_pos ⟨by omega, hint⟩]

/-- A draw is 0 or not below the smallest positive double. -/
theorem IsDraw.pos_or {u : ℝ} (h : IsDraw u) : u = 0 ∨ 1 / 2 ^ doubleExp ≤ u ∧ u < 1 := by
  obtain ⟨m, hm, rfl⟩ := h
  obtain rfl | hpos := Nat.eq_zero_or_pos m
  · left
    simp
  · right
    have hm1 : (1 : ℝ) ≤ m := by exact_mod_cast hpos
    have hm2 : (m : ℝ) < 2 ^ doubleExp := by exact_mod_cast hm
    exact ⟨by gcongr, by rwa [div_lt_one (by positivity)]⟩

/-- The integer logarithms of what a draw can be. -/
theorem log_inv_le {M : ℕ} (hM : 2 ≤ M) {u : ℝ} (hlow : 1 / 2 ^ doubleExp ≤ u) :
    Int.log M u⁻¹ ≤ doubleExp := by
  have hpos : 0 < u := lt_of_lt_of_le (by positivity) hlow
  have hinv : u⁻¹ ≤ 2 ^ doubleExp := by
    rw [inv_le_comm₀ hpos (by positivity), ← one_div]
    exact hlow
  have hM1 : 1 < M := hM
  refine Int.lt_add_one_iff.mp ((Int.lt_zpow_iff_log_lt hM1 (inv_pos.mpr hpos)).mp ?_)
  calc u⁻¹ ≤ (2 : ℝ) ^ doubleExp := hinv
    _ ≤ (M : ℝ) ^ doubleExp := by gcongr; exact_mod_cast hM
    _ < (M : ℝ) ^ (doubleExp + 1) := pow_lt_pow_right₀ (by exact_mod_cast hM1) (Nat.lt_succ_self _)
    _ = (M : ℝ) ^ ((doubleExp : ℤ) + 1) := by exact_mod_cast (zpow_natCast (M : ℝ) (doubleExp + 1)).symm

theorem doubleMin_bounds : 1 / 2 ^ doubleExp ≤ doubleMin ∧ doubleMin < 1 := by
  constructor
  · unfold doubleMin doubleExp
    gcongr <;> norm_num
  · unfold doubleMin
    rw [div_lt_one (by positivity)]
    exact one_lt_pow₀ (by norm_num) (by norm_num)

/-- A draw of 0 counts as the smallest normal double. -/
theorem randomLevel_zero (M : ℕ) : randomLevel M 0 = randomLevel M doubleMin := by
  have hpos : 0 < doubleMin := by
    unfold doubleMin
    positivity
  unfold randomLevel
  simp only [if_pos le_rfl, if_neg (not_le.mpr hpos)]

theorem randomLevel_bounds_of_pos {M : ℕ} (hM : 2 ≤ M) {u : ℝ} (hlow : 1 / 2 ^ doubleExp ≤ u)
    (hlt : u < 1) : ∃ level, randomLevel M u = some level ∧ 0 ≤ level ∧ level ≤ doubleExp := by
  have hpos : 0 < u := lt_of_lt_of_le (by positivity) hlow
  have hle := log_inv_le hM hlow
  have hexp : (doubleExp : ℤ) < 2 ^ 31 := by decide
  have hnonneg : 0 ≤ Int.log M u⁻¹ := by
    rw [Int.log_of_one_le_right M ((one_le_inv₀ hpos).mpr hlt.le)]
    exact Int.natCast_nonneg _
  exact ⟨Int.log M u⁻¹, randomLevel_eq hM hpos hlt (by omega), hnonneg, hle⟩

/-- **From `M = 2` on every draw gives a level.** -/
theorem randomLevel_bounds {M : ℕ} (hM : 2 ≤ M) {u : ℝ} (hu : IsDraw u) :
    ∃ level, randomLevel M u = some level ∧ 0 ≤ level ∧ level ≤ doubleExp := by
  obtain rfl | ⟨hlow, hlt⟩ := hu.pos_or
  · rw [randomLevel_zero]
    exact randomLevel_bounds_of_pos hM doubleMin_bounds.1 doubleMin_bounds.2
  · exact randomLevel_bounds_of_pos hM hlow hlt

theorem drawn_bounds {M : ℕ} (hM : 2 ≤ M) {level : ℤ} (h : level ∈ drawn M) :
    0 ≤ level ∧ level ≤ doubleExp := by
  obtain ⟨u, hu, hlevel⟩ := h
  obtain ⟨level', hlevel', hbounds⟩ := randomLevel_bounds hM hu
  rw [hlevel, Option.some.injEq] at hlevel'
  exact hlevel' ▸ hbounds

/-- The words of the upper layers of a node are few, for parameters without overflow. -/
theorem words_le (p : Params) {level : ℤ} (hle : level ≤ doubleExp) :
    level.toNat * p.strideUpper ≤ 1074 * 129 := by
  have hM := p.M_le
  have hexp : (doubleExp : ℤ) = 1074 := rfl
  have hstride : p.strideUpper ≤ 129 := by
    unfold Params.strideUpper Params.maxM
    rw [kMaxDegree] at hM
    omega
  exact Nat.mul_le_mul (by omega) hstride

theorem assignUpper_eq (p : Params) {level : ℤ} (hle : level ≤ doubleExp) :
    assignUpper p.M level = some (level.toNat * p.strideUpper) := by
  have hM := p.M_le
  have hwords := words_le p hle
  have hstride : (p.M + 1) % 2 ^ 64 = p.strideUpper := by
    rw [kMaxDegree] at hM
    exact Nat.mod_eq_of_lt (by omega)
  have hsmall : level.toNat * p.strideUpper % 2 ^ 64 = level.toNat * p.strideUpper :=
    Nat.mod_eq_of_lt (by omega)
  unfold assignUpper
  simp only [hstride, hsmall]
  obtain hpos | hneg := lt_or_ge 0 level
  · rw [if_pos hpos, if_pos (by omega)]
  · rw [if_neg (not_lt.mpr hneg), Int.toNat_of_nonpos hneg, Nat.zero_mul]

theorem storable_of_le (p : Params) {level : ℤ} (hnonneg : 0 ≤ level) (hle : level ≤ doubleExp) :
    p.Storable level := by
  have hexp : (doubleExp : ℤ) = 1074 := rfl
  have hwords := words_le p hle
  exact ⟨by omega, by omega, by omega⟩

/-- From `2 ^ 63` on, the draw `2 ^ -64` asks for more words than a vector can have. -/
theorem assign_fails {M : ℕ} (hlow : 2 ^ 63 ≤ M) (hhigh : M ≤ 2 ^ 63 + 128) :
    ∃ u, IsDraw u ∧ randomLevel M u = some 1 ∧ assignUpper M 1 = none := by
  have hlog : Int.log M ((1 / 2 ^ 64 : ℝ)⁻¹) = 1 := by
    have hcast : ((1 / 2 ^ 64 : ℝ)⁻¹) = ((2 ^ 64 : ℕ) : ℝ) := by norm_num
    have hnat : Nat.log M (2 ^ 64) = 1 :=
      Nat.log_eq_one_iff'.mpr ⟨by omega, by nlinarith⟩
    rw [hcast, Int.log_natCast, hnat]
    rfl
  have hexp : 64 + (doubleExp - 64) = doubleExp := rfl
  refine ⟨1 / 2 ^ 64, ⟨2 ^ (doubleExp - 64), ?_, ?_⟩, ?_, ?_⟩
  · exact Nat.pow_lt_pow_right (by decide) (by decide)
  · rw [Nat.cast_pow, Nat.cast_ofNat, div_eq_div_iff (by positivity) (by positivity), one_mul,
      ← pow_add, Nat.add_comm, hexp]
  · rw [randomLevel_eq (by omega) (by positivity) (by norm_num) (by rw [hlog]; norm_num), hlog]
  · have hmod : (1 : ℤ).toNat * ((M + 1) % 2 ^ 64) % 2 ^ 64 = M + 1 := by
      rw [Int.toNat_one]
      omega
    unfold assignUpper
    rw [if_pos one_pos]
    simp only [hmod]
    rw [if_neg (by omega)]

end Levels

/-! ### Neighbours on layer 0 -/

namespace Graph

/-- No level is negative, and every node but the first has a neighbour on layer 0. -/
structure Linked (n : ℕ) (g : Graph) : Prop where
  level_nonneg : ∀ i < n, 0 ≤ g.levels i
  neighbor : ∀ i, 0 < i → i < n → g.neighbors i 0 ≠ []

theorem zero_mem_levelsDown {top : ℤ} : (0 : ℤ) ∈ levelsDown top ↔ 0 ≤ top := by
  unfold levelsDown
  rw [List.mem_map]
  constructor
  · rintro ⟨i, hi, heq⟩
    rw [List.mem_range] at hi
    omega
  · intro h
    exact ⟨top.toNat, List.mem_range.mpr (by omega), by omega⟩

section
variable {F : Type} [Platform F] {p : Params} {n : ℕ} {g : Graph}

/-- **Linking a node of a level that is not negative** gives it a neighbour on layer 0. -/
theorem Linked.link (h : Linked n g) (hw : WellFormed p n g) (hn : n ≤ kNone)
    (pair : ℕ → ℕ → F) {level : ℤ} (hlevel : 0 ≤ level) :
    Linked (n + 1) (g.link p pair n level) := by
  have hlevels : (g.link p pair n level).levels = Function.update g.levels n level :=
    levels_link p pair g n level
  constructor
  · intro i hi
    rw [hlevels]
    obtain rfl | hne := eq_or_ne i n
    · rwa [Function.update_self]
    · rw [Function.update_of_ne hne]
      exact h.level_nonneg i (by omega)
  · intro i hpos hi
    have hn0 : 0 < n := by omega
    have hmax : 0 ≤ g.maxLevel := hw.level_entry hn0 ▸ h.level_nonneg _ (hw.entry_lt hn0)
    obtain ⟨hjoined, -⟩ := link_spec (p := p) pair level hw.closed (hw.entry_lt hn0)
      (hw.entry_ne_none hn0 hn) (hw.level_entry hn0)
    obtain ⟨sel, hsel, hj⟩ := hjoined 0 (by simpa using ⟨hlevel, hmax⟩)
    have hlist := hj.neighbors hsel.length_le i
    rw [Nat.cast_zero] at hlist
    rw [hlist]
    obtain rfl | hne := eq_or_ne i n
    · rw [if_pos rfl]
      exact hsel.ne_nil
    · have hset : (g.setLevel p n level).neighbors i 0 = g.neighbors i 0 :=
        neighbors_congr (linkBlock_setLevel_ne p g level hne 0)
      have hold := h.neighbor i hpos (by omega)
      rw [if_neg hne, hset]
      split_ifs
      · -- a list keeps its length when it gains a link back
        have hlen := (hw.links i (by omega) 0 (by simpa using h.level_nonneg i (by omega))).length_le
        have hgained := (gained_backLinks p pair n 0 i hlen).length_le
        rw [← List.length_pos_iff] at hold ⊢
        exact lt_of_lt_of_le hold hgained
      · exact hold

/-- A node of a negative level is linked nowhere. -/
theorem WellFormed.neighbors_link_of_neg (hw : WellFormed p n g) (hpos : 0 < n) (hn : n ≤ kNone)
    (pair : ℕ → ℕ → F) {level : ℤ} (hlevel : level < 0) :
    (g.link p pair n level).neighbors n 0 = [] ∧
      ∀ j ≠ n, ∀ l : ℕ, (g.link p pair n level).neighbors j l = g.neighbors j l := by
  obtain ⟨-, hother⟩ := link_spec (p := p) pair level hw.closed (hw.entry_lt hpos)
    (hw.entry_ne_none hpos hn) (hw.level_entry hpos)
  have hkept : ∀ (j l : ℕ), (g.link p pair n level).neighbors j l =
      (g.setLevel p n level).neighbors j l := fun j l =>
    neighbors_congr (hother l (lt_of_le_of_lt (min_le_left _ _) (by omega)) j)
  constructor
  · have hfresh : (g.setLevel p n level).neighbors n 0 = [] :=
      congrArg Block.neighbors (hw.fresh n le_rfl)
    exact (hkept n 0).trans hfresh
  · intro j hj l
    exact (hkept j l).trans (neighbors_congr (linkBlock_setLevel_ne p g level hj l))

end

end Graph

namespace Index

variable [Platform UInt32] {p : Params} {S : Set ℤ} {idx : Index UInt32}

/-- **An insertion with a level that is not negative keeps every node linked.** -/
theorem Stored.linked_addPointAt (h : idx.Stored) (hlinked : idx.graph.Linked idx.store.count)
    (vec : List UInt32) (label : Label) {level : ℤ} (hlevel : 0 ≤ level)
    (hid : idx.store.hasLabel label = true ∨ idx.store.count < 2 ^ 32) :
    (idx.addPointAt vec label level).1.graph.Linked (idx.addPointAt vec label level).1.store.count := by
  cases hres : (idx.addPointAt vec label level).2 with
  | error e => rwa [addPointAt_of_error hres]
  | ok id =>
      obtain ⟨hlabel, hlow, hideq, hstore, hgraph⟩ := addPointAt_of_ok hres
      have hcount := hid.resolve_left (by rw [hlabel]; exact Bool.false_ne_true)
      rw [Nat.mod_eq_of_lt hcount] at hlow hideq
      have hadd : (idx.store.add idx.params vec label).1.count = idx.store.count + 1 := by
        rw [Store.add_of_room vec hlabel (lt_min hlow hcount)]
        rfl
      rw [hstore, hgraph, hadd, hideq]
      exact hlinked.link h.wellFormed (by rw [kNone]; omega) _ hlevel

/-- After calls with levels that are not negative every node but the first has a neighbour. -/
theorem Lived.linked (h : Lived p S idx) (hS : ∀ level ∈ S, 0 ≤ level ∧ p.Storable level) :
    idx.graph.Linked idx.store.count := by
  induction h with
  | new seed =>
      exact ⟨fun i hi => absurd hi (Nat.not_lt_zero i), fun i _ hi => absurd hi (Nat.not_lt_zero i)⟩
  | call op rng hlived _ hid hdraws ih =>
      obtain ⟨rfl, hstored⟩ := hlived.stored fun level hlevel => (hS level hlevel).2
      cases op with
      | addPoint vec label level =>
          exact hstored.linked_addPointAt ih vec label (hS level hdraws).1 hid
      | markDeleted label => exact (Store.count_markDeleted _ label).symm ▸ ih
      | unmarkDeleted label => exact (Store.count_unmarkDeleted _ label).symm ▸ ih
      | search query k ef => exact ih
  | reload hlived hload ih =>
      obtain ⟨rfl, hstored⟩ := hlived.stored fun level hlevel => (hS level hlevel).2
      rw [hstored.load_save] at hload
      obtain rfl := Except.ok.inj hload
      exact ih

end Index

/-! ### Every accepted configuration -/

namespace Levels

/-- The levels of all nodes are defined for this `M`: there is a multiplier, every draw gives a level
that is not negative and whose layers can be allocated, and in every run with such levels, in which
new labels come while there are ids, the linking loop includes layer 0 and every node but the first
has a neighbour there. -/
structure LevelsDefined [Platform UInt32] (M : ℕ) : Prop where
  mult : ∃ mult, levelMult M = some mult
  level : ∀ u, IsDraw u → ∃ level, randomLevel M u = some level ∧ 0 ≤ level ∧
    ∃ words, assignUpper M level = some words
  linked : ∀ p : Params, p.M = M → ∀ idx : Index UInt32, Index.Lived p (drawn M) idx →
    (0 < idx.store.count → ∀ level ∈ drawn M,
      (0 : ℤ) ∈ Graph.levelsDown (min level idx.graph.maxLevel)) ∧
    ∀ i, 0 < i → i < idx.store.count → idx.graph.neighbors i 0 ≠ []

theorem mul_two_le_kMaxDegree {M : ℕ} (hhigh : M ≤ 128) : M * 2 ≤ kMaxDegree := by
  rw [kMaxDegree]
  omega

/-- Parameters for every `M` from 1 to 128. -/
def paramsWith (M : ℕ) (hlow : 1 ≤ M) (hhigh : M ≤ 128) : Params :=
  { Params.smallest with
    M
    efConstruction := M
    M_pos := hlow
    M_le := mul_two_le_kMaxDegree hhigh
    M_le_ef := le_rfl
    ef_lt := hhigh.trans_lt (by decide) }

section
variable [Platform UInt32]

theorem levelsDefined_of_two_le {M : ℕ} (hlow : 2 ≤ M) (hhigh : M ≤ 128) : LevelsDefined M where
  mult := ⟨_, levelMult_eq hlow⟩
  level u hu := by
    obtain ⟨level, hlevel, hnonneg, hle⟩ := randomLevel_bounds hlow hu
    exact ⟨level, hlevel, hnonneg, _, assignUpper_eq (paramsWith M (by omega) hhigh) hle⟩
  linked p hp idx h := by
    subst hp
    have hS : ∀ level ∈ drawn p.M, 0 ≤ level ∧ p.Storable level := by
      intro level hlevel
      obtain ⟨hnonneg, hle⟩ := drawn_bounds hlow hlevel
      exact ⟨hnonneg, storable_of_le p hnonneg hle⟩
    have hlinked := h.linked hS
    obtain ⟨rfl, hstored⟩ := h.stored fun level hlevel => (hS level hlevel).2
    refine ⟨fun hpos level hlevel => ?_, hlinked.neighbor⟩
    have hmax := hlinked.level_nonneg _ (hstored.wellFormed.entry_lt hpos)
    rw [hstored.wellFormed.level_entry hpos] at hmax
    exact Graph.zero_mem_levelsDown.mpr (le_min (hS level hlevel).1 hmax)

/-- **Which accepted configurations have levels.** -/
theorem levelsDefined_iff {M : ℕ} (h : Accepts M) : LevelsDefined M ↔ 2 ≤ M ∧ M ≤ 128 := by
  constructor
  · intro hdef
    obtain ⟨hlow, hhigh⟩ | ⟨hlow, hhigh⟩ := accepts_iff.mp h
    · refine ⟨?_, hhigh⟩
      by_contra hM
      obtain rfl : M = 1 := by omega
      obtain ⟨mult, hmult⟩ := hdef.mult
      rw [levelMult_one] at hmult
      cases hmult
    · obtain ⟨u, hu, hlevel, hfail⟩ := assign_fails hlow hhigh
      obtain ⟨level, hlevel', -, words, hwords⟩ := hdef.level u hu
      rw [hlevel, Option.some.injEq] at hlevel'
      rw [← hlevel', hfail] at hwords
      cases hwords
  · rintro ⟨hlow, hhigh⟩
    exact levelsDefined_of_two_le hlow hhigh

end

section
open StandIn

theorem levelsDefined_sixteen : LevelsDefined 16 ↔ 2 ≤ 16 ∧ 16 ≤ 128 :=
  levelsDefined_iff (by decide)

/-- The constructor accepts `M = 1`, and divides by `ln 1`. -/
theorem one_undefined : Accepts 1 ∧ ¬ LevelsDefined 1 := by
  refine ⟨by decide, fun h => ?_⟩
  obtain ⟨mult, hmult⟩ := h.mult
  rw [levelMult_one] at hmult
  cases hmult

end

end Levels

end VectorSearch.Hnsw
