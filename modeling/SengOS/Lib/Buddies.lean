import Mathlib.Data.Nat.Bitwise
import Mathlib.Order.Interval.Finset.Nat
import SengOS.Lib.Extents

/-!
# Buddies

Naturally aligned pieces of a pool, each with its partner at the address that
differs in the bit of its size. Pieces that fill an aligned pool, no two of
which are partners, are one piece.
-/

namespace SengOS

namespace Extent

/-- The size is a power of two and divides the address. -/
def Natural (e : Extent) : Prop := ∃ k, e.size = 2 ^ k ∧ 2 ^ k ∣ e.start

/-- Where the other half of the next larger piece starts. -/
def partner (e : Extent) : Nat := e.start ^^^ e.size

/-- No two of the pieces below the size of the pool are partners. -/
structure Merged (top : Nat) (es : List Extent) : Prop where
  natural : ∀ e ∈ es, e.Natural
  single : ∀ e ∈ es, ∀ f ∈ es, e.size = f.size → e.size < top → f.start ≠ e.partner

theorem Merged.subset {top : Nat} {es fs : List Extent} (h : Merged top es) (hs : fs ⊆ es) : Merged top fs :=
  ⟨fun e he => h.natural e (hs he), fun e he f hf => h.single e (hs he) f (hs hf)⟩

/-! ## Partners -/

/-- The bit of a power of two is flipped upwards or downwards. -/
theorem xor_two_pow (x k : Nat) :
    (x / 2 ^ k % 2 = 0 ∧ x ^^^ 2 ^ k = x + 2 ^ k) ∨
      (x / 2 ^ k % 2 = 1 ∧ 2 ^ k ≤ x ∧ x ^^^ 2 ^ k = x - 2 ^ k) := by
  have hsplit := Nat.div_add_mod x (2 ^ k)
  have hq : (x ^^^ 2 ^ k) / 2 ^ k = x / 2 ^ k ^^^ 1 := by
    rw [Nat.xor_div_two_pow, Nat.div_self (Nat.two_pow_pos k)]
  have hr : (x ^^^ 2 ^ k) % 2 ^ k = x % 2 ^ k := by
    rw [Nat.xor_mod_two_pow, Nat.mod_self, Nat.xor_zero]
  have hxor := Nat.div_add_mod (x ^^^ 2 ^ k) (2 ^ k)
  rw [hq, hr] at hxor
  rcases Nat.even_or_odd (x / 2 ^ k) with heven | hodd
  · left
    rw [Nat.xor_one_of_even heven, Nat.mul_add] at hxor
    exact ⟨Nat.even_iff.mp heven, by omega⟩
  · right
    obtain ⟨m, hm⟩ := hodd
    rw [Nat.xor_one_of_odd ⟨m, hm⟩, hm, Nat.add_sub_cancel] at hxor
    rw [hm, Nat.mul_add] at hsplit
    exact ⟨by omega, by omega, by omega⟩

/-- A piece is the lower or the upper half of a natural piece of twice the size. -/
theorem partner_cases {e : Extent} {k : Nat} (hs : e.size = 2 ^ k) (hd : 2 ^ k ∣ e.start) :
    (2 ^ (k + 1) ∣ e.start ∧ e.partner = e.start + 2 ^ k) ∨
      (2 ^ k ≤ e.start ∧ 2 ^ (k + 1) ∣ e.start - 2 ^ k ∧ e.partner = e.start - 2 ^ k) := by
  obtain ⟨q, hq⟩ := hd
  have hpos := Nat.two_pow_pos k
  have hdiv : e.start / 2 ^ k = q := by rw [hq, Nat.mul_div_cancel_left _ hpos]
  unfold partner
  rw [hs]
  rcases xor_two_pow e.start k with ⟨heven, hx⟩ | ⟨hodd, hle, hx⟩
  · left
    rw [hdiv] at heven
    obtain ⟨m, rfl⟩ : ∃ m, q = 2 * m := ⟨q / 2, by omega⟩
    exact ⟨⟨m, by rw [hq, Nat.pow_succ, Nat.mul_assoc]⟩, hx⟩
  · right
    rw [hdiv] at hodd
    obtain ⟨m, rfl⟩ : ∃ m, q = 2 * m + 1 := ⟨q / 2, by omega⟩
    refine ⟨hle, ⟨m, ?_⟩, hx⟩
    rw [hq, Nat.mul_add, Nat.mul_one, Nat.add_sub_cancel, Nat.pow_succ, Nat.mul_assoc]

/-- The lower one of two partners starts the natural piece that both make up. -/
theorem partner_min {e : Extent} {k : Nat} (hs : e.size = 2 ^ k) (hd : 2 ^ k ∣ e.start) :
    2 ^ (k + 1) ∣ min e.partner e.start ∧ max e.partner e.start = min e.partner e.start + 2 ^ k := by
  have hpos := Nat.two_pow_pos k
  rcases partner_cases hs hd with ⟨hdvd, hp⟩ | ⟨hle, hdvd, hp⟩
  · rw [hp, Nat.min_eq_right (by omega), Nat.max_eq_left (by omega)]
    exact ⟨hdvd, rfl⟩
  · rw [hp, Nat.min_eq_left (by omega), Nat.max_eq_right (by omega)]
    exact ⟨hdvd, by omega⟩

theorem partner_lower {a j : Nat} (hd : 2 ^ (j + 1) ∣ a) : partner ⟨a, 2 ^ j⟩ = a + 2 ^ j := by
  have hda : 2 ^ j ∣ a := Nat.dvd_trans (Nat.pow_dvd_pow 2 (Nat.le_succ j)) hd
  rcases partner_cases (e := ⟨a, 2 ^ j⟩) rfl hda with ⟨-, hp⟩ | ⟨hle, hdvd, -⟩
  · exact hp
  · have hsmall := Nat.two_pow_pos j
    have hdiff := Nat.dvd_sub hd hdvd
    dsimp only at hdiff hle
    rw [show a - (a - 2 ^ j) = 2 ^ j by omega] at hdiff
    have := Nat.le_of_dvd hsmall hdiff
    rw [Nat.pow_succ] at this
    omega

theorem partner_ne {e : Extent} (h : e.Natural) : e.start ≠ e.partner := by
  obtain ⟨k, hs, hd⟩ := h
  have hpos := Nat.two_pow_pos k
  rcases partner_cases hs hd with ⟨-, hp⟩ | ⟨hle, -, hp⟩ <;> omega

theorem partner_comm {e f : Extent} (hs : e.size = f.size) (h : f.start = e.partner) : e.start = f.partner := by
  rw [partner, ← hs, h, partner, Nat.xor_xor_cancel_right]

/-- A piece whose partner is not there. -/
theorem Merged.insert {top : Nat} {es : List Extent} (h : Merged top es) {x : Extent} (hn : x.Natural)
    (hx : x.size < top → ∀ f ∈ es, f.size = x.size → f.start ≠ x.partner) : Merged top (x :: es) := by
  refine ⟨fun e he => ?_, fun e he f hf hs hlt hp => ?_⟩
  · rcases List.mem_cons.mp he with rfl | he
    · exact hn
    · exact h.natural e he
  · rcases List.mem_cons.mp he with rfl | he'
    · rcases List.mem_cons.mp hf with rfl | hf
      · exact partner_ne hn hp
      · exact hx hlt f hf hs.symm hp
    · rcases List.mem_cons.mp hf with rfl | hf
      · exact hx (hs ▸ hlt) e he' hs (partner_comm hs hp)
      · exact h.single e he' f hf hs hlt hp

/-- A piece is cut in two: either half can be kept, for the other half's place
is not that of another piece. -/
theorem Merged.half {top lo hi a m : Nat} {es : List Extent} (h : Merged top es)
    (hn : Natural ⟨a, m + m⟩) (hp : Packed lo hi (⟨a, m + m⟩ :: es)) {x : Extent}
    (hx : x = ⟨a, m⟩ ∨ x = ⟨a + m, m⟩) : x.Natural ∧ Merged top (x :: es) := by
  obtain ⟨k, hs, hd⟩ := hn
  dsimp only at hs hd
  have hpos := Nat.two_pow_pos k
  obtain ⟨j, rfl⟩ : ∃ j, k = j + 1 := by
    cases k with
    | zero => omega
    | succ j => exact ⟨j, rfl⟩
  have hm : m = 2 ^ j := by
    rw [Nat.pow_succ] at hs
    omega
  subst hm
  have hda : 2 ^ j ∣ a := Nat.dvd_trans (Nat.pow_dvd_pow 2 (Nat.le_succ j)) hd
  have hhalf : x.Natural ∧ x.size = 2 ^ j ∧ a ≤ x.partner ∧ x.partner < a + (2 ^ j + 2 ^ j) := by
    have hsmall := Nat.two_pow_pos j
    have hlower := partner_lower hd
    rcases hx with rfl | rfl
    · exact ⟨⟨j, rfl, hda⟩, rfl, by omega, by omega⟩
    · have hupper : a = partner ⟨a + 2 ^ j, 2 ^ j⟩ := partner_comm (e := ⟨a, 2 ^ j⟩) rfl hlower.symm
      exact ⟨⟨j, rfl, Nat.dvd_add hda (Nat.dvd_refl _)⟩, rfl, by omega, by omega⟩
  obtain ⟨hnat, hsize, hge, hlt⟩ := hhalf
  refine ⟨hnat, h.insert hnat fun _ f hf hfs hpf => ?_⟩
  have hsmall := Nat.two_pow_pos j
  apply (List.pairwise_cons.mp hp.apart).1 f hf f.start
  · unfold Has
    dsimp only
    omega
  · unfold Has
    omega

/-- Of two multiples the smaller one has room for the divisor. -/
theorem add_le_of_dvd {d a b : Nat} (ha : d ∣ a) (hb : d ∣ b) (h : a < b) : a + d ≤ b := by
  obtain ⟨x, rfl⟩ := ha
  obtain ⟨y, rfl⟩ := hb
  have hxy : x < y := Nat.lt_of_mul_lt_mul_left h
  calc d * x + d = d * (x + 1) := by rw [Nat.mul_add, Nat.mul_one]
    _ ≤ d * y := Nat.mul_le_mul_left d hxy

/-- In a pool that is aligned to its size a smaller piece has its partner in the pool. -/
theorem partner_inside {e : Extent} {k n lo : Nat} (hs : e.size = 2 ^ k) (hd : 2 ^ k ∣ e.start)
    (hk : k < n) (hlo : 2 ^ n ∣ lo) (hin : lo ≤ e.start ∧ e.start + e.size ≤ lo + 2 ^ n) :
    lo ≤ e.partner ∧ e.partner + e.size ≤ lo + 2 ^ n := by
  obtain ⟨hdvd, hmax⟩ := partner_min hs hd
  have hstep : 2 ^ (k + 1) ∣ 2 ^ n := Nat.pow_dvd_pow 2 hk
  have hdouble : 2 ^ (k + 1) = 2 ^ k + 2 ^ k := by rw [Nat.pow_succ]; omega
  have hpos := Nat.two_pow_pos k
  have hlow := Nat.dvd_trans hstep hlo
  have hupper := add_le_of_dvd hdvd (Nat.dvd_add hlow hstep) (by omega)
  have hlower : lo ≤ min e.partner e.start := by
    by_contra hlt
    have := add_le_of_dvd hdvd hlow (by omega)
    omega
  omega

/-! ## Pieces that fill the pool -/

/-- The addresses of the pieces. -/
def cover : List Extent → Finset Nat
  | [] => ∅
  | e :: es => Finset.Ico e.start (e.start + e.size) ∪ cover es

theorem mem_cover {es : List Extent} {x : Nat} : x ∈ cover es ↔ ∃ e ∈ es, e.Has x := by
  induction es with
  | nil => simp [cover]
  | cons e es ih =>
    rw [cover, Finset.mem_union, Finset.mem_Ico, ih]
    simp [Has]

theorem card_cover {es : List Extent} (h : es.Pairwise Apart) : (cover es).card = total es := by
  induction es with
  | nil => rfl
  | cons e es ih =>
    obtain ⟨hhead, htail⟩ := List.pairwise_cons.mp h
    have hdisj : Disjoint (Finset.Ico e.start (e.start + e.size)) (cover es) := by
      rw [Finset.disjoint_left]
      intro x hx hc
      obtain ⟨f, hf, hfx⟩ := mem_cover.mp hc
      exact hhead f hf x (Finset.mem_Ico.mp hx) hfx
    rw [cover, Finset.card_union_of_disjoint hdisj, ih htail, Nat.card_Ico, total_cons]
    omega

/-- Pieces with the size of the pool leave nothing out. -/
theorem Packed.covers {lo hi : Nat} {es : List Extent} (h : Packed lo hi es) (ht : total es = hi - lo)
    {x : Nat} (hx : lo ≤ x ∧ x < hi) : ∃ e ∈ es, e.Has x := by
  have hsub : cover es ⊆ Finset.Ico lo hi := by
    intro y hy
    obtain ⟨e, he, hey⟩ := mem_cover.mp hy
    have hin := h.inside e he
    unfold Has at hey
    exact Finset.mem_Ico.mpr ⟨by omega, by omega⟩
  have heq : cover es = Finset.Ico lo hi := by
    apply Finset.eq_of_subset_of_card_le hsub
    rw [card_cover h.apart, ht, Nat.card_Ico]
  rw [← mem_cover, heq]
  exact Finset.mem_Ico.mpr hx

instance : Std.Symm Apart := ⟨fun _ _ h => h.symm⟩

theorem Packed.eq_of_has {lo hi : Nat} {es : List Extent} (h : Packed lo hi es) {e f : Extent}
    (he : e ∈ es) (hf : f ∈ es) {x : Nat} (hx : e.Has x) (hx' : f.Has x) : e = f := by
  by_contra hne
  exact h.apart.forall he hf hne x hx hx'

/-- A natural piece that holds the partner of a smaller one holds that one too. -/
theorem has_of_partner {e f : Extent} {j k : Nat} (hs : e.size = 2 ^ k) (hd : 2 ^ k ∣ e.start)
    (hs' : f.size = 2 ^ j) (hd' : 2 ^ j ∣ f.start) (hkj : k < j) (hx : f.Has e.partner) :
    f.Has e.start := by
  obtain ⟨hdvd, hmax⟩ := partner_min hs hd
  have hstep : 2 ^ (k + 1) ∣ 2 ^ j := Nat.pow_dvd_pow 2 hkj
  have hdouble : 2 ^ (k + 1) = 2 ^ k + 2 ^ k := by rw [Nat.pow_succ]; omega
  have hpos := Nat.two_pow_pos k
  have hlow := Nat.dvd_trans hstep hd'
  unfold Has at hx ⊢
  rw [hs'] at hx ⊢
  have hupper := add_le_of_dvd hdvd (Nat.dvd_add hlow hstep) (by omega)
  have hlower : f.start ≤ min e.partner e.start := by
    by_contra hlt
    have := add_le_of_dvd hdvd hlow (by omega)
    omega
  omega

/-- A piece as large as all together is the only one. -/
theorem eq_singleton_of_total {es : List Extent} {e : Extent} (he : e ∈ es) (hpos : ∀ g ∈ es, 0 < g.size)
    (ht : total es = e.size) : es = [e] := by
  have empty (gs : List Extent) (hsub : gs ⊆ es) (hz : total gs = 0) : gs = [] := by
    cases gs with
    | nil => rfl
    | cons g gs =>
      have hg := hpos g (hsub List.mem_cons_self)
      rw [total_cons] at hz
      omega
  obtain ⟨front, back, rfl⟩ := List.append_of_mem he
  rw [total_append, total_cons] at ht
  have hfront := empty front (List.subset_append_left _ _) (by omega)
  have hback := empty back (fun g hg => List.mem_append_right _ (List.mem_cons_of_mem _ hg)) (by omega)
  rw [hfront, hback]
  rfl

/-- Where pieces without partners fill an aligned pool, one smaller than the
pool has a smaller one beside it. -/
theorem Merged.smaller {n k lo : Nat} {es : List Extent} {e : Extent} (h : Merged (2 ^ n) es)
    (hp : Packed lo (lo + 2 ^ n) es) (ht : total es = 2 ^ n) (hlo : 2 ^ n ∣ lo) (he : e ∈ es)
    (hs : e.size = 2 ^ k) (hd : 2 ^ k ∣ e.start) (hk : k < n) : ∃ f ∈ es, f.size < e.size := by
  have hlt : e.size < 2 ^ n := by
    rw [hs]
    exact Nat.pow_lt_pow_right (by decide) hk
  have hpart := partner_inside hs hd hk hlo (hp.inside e he)
  have hpos := Nat.two_pow_pos k
  obtain ⟨f, hf, hfx⟩ := hp.covers (by omega : total es = lo + 2 ^ n - lo)
    (show lo ≤ e.partner ∧ e.partner < lo + 2 ^ n by omega)
  obtain ⟨j, hs', hd'⟩ := h.natural f hf
  -- the piece at its partner's place is smaller, is its partner, or holds both
  rcases Nat.lt_trichotomy j k with hjk | rfl | hkj
  · refine ⟨f, hf, ?_⟩
    rw [hs, hs']
    exact Nat.pow_lt_pow_right (by decide) hjk
  · exfalso
    have hdp : 2 ^ j ∣ e.partner := by
      rcases partner_cases hs hd with ⟨-, e'⟩ | ⟨-, hdvd, e'⟩
      · rw [e']
        exact Nat.dvd_add hd (Nat.dvd_refl _)
      · rw [e']
        exact Nat.dvd_sub hd (Nat.dvd_refl _)
    have hstart : f.start = e.partner := by
      unfold Has at hfx
      by_contra hne
      have := add_le_of_dvd hd' hdp (by omega)
      omega
    exact h.single e he f hf (by rw [hs, hs']) hlt hstart
  · exfalso
    have hboth := has_of_partner hs hd hs' hd' hkj hfx
    have hself : e.Has e.start := ⟨Nat.le_refl _, by omega⟩
    have heq := hp.eq_of_has he hf hself hboth
    rw [heq, hs'] at hs
    exact absurd (Nat.pow_right_injective (Nat.le_refl 2) hs) (by omega)

/-- Of the pieces that fill an aligned pool without partners, the smallest is the pool. -/
theorem Merged.whole {n lo : Nat} {es : List Extent} (h : Merged (2 ^ n) es)
    (hp : Packed lo (lo + 2 ^ n) es) (ht : total es = 2 ^ n) (hlo : 2 ^ n ∣ lo) : es = [⟨lo, 2 ^ n⟩] := by
  have hpos := Nat.two_pow_pos n
  have hex : ∃ m, ∃ e ∈ es, e.size = m := by
    cases es with
    | nil =>
      have : total [] = 0 := rfl
      omega
    | cons e es => exact ⟨_, e, List.mem_cons_self, rfl⟩
  classical
  obtain ⟨e, he, hmin⟩ := Nat.find_spec hex
  have hleast (f : Extent) (hf : f ∈ es) : e.size ≤ f.size := by
    rw [hmin]
    exact Nat.find_min' hex ⟨f, hf, rfl⟩
  obtain ⟨k, hs, hd⟩ := h.natural e he
  have hin := hp.inside e he
  have hkn : k ≤ n := by
    rw [← Nat.pow_le_pow_iff_right (show 1 < 2 by decide)]
    omega
  rcases Nat.eq_or_lt_of_le hkn with rfl | hk
  · have hone := eq_singleton_of_total he (fun g hg => by have := hleast g hg; omega) (by omega)
    have hstart : e.start = lo := by omega
    rw [hone, ← hstart, ← hs]
  · obtain ⟨f, hf, hless⟩ := h.smaller hp ht hlo he hs hd hk
    have := hleast f hf
    omega

end Extent

end SengOS
