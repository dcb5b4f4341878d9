import SengOS.Kernel.Buddy

/-!
# Alignment and merging of buddy blocks

`buddy_free` finds the partner of a block by one bit of its absolute address,
and the pool starts at the first frame that was free. In a pool that is aligned
to its own size the partner is the other half of the cut, so that blocks stay
aligned and merge completely. In any other pool the first block does not.
-/

namespace SengOS

namespace Buddy

theorem extent_natural {addr : Word} {order : Nat} :
    (extent addr order).Natural ↔ 2 ^ (12 + order) ∣ addr.toNat := by
  constructor
  · rintro ⟨k, hs, hd⟩
    have hk : 2 ^ (12 + order) = 2 ^ k := (size_eq order).symm.trans hs
    rw [hk]
    exact hd
  · intro hd
    exact ⟨12 + order, size_eq order, hd⟩

/-! ## Cutting -/

/-- What is done to a block that is taken does not show. -/
theorem freeExtents_taken (bs : List BuddyBlock) (i : Nat) (f : BuddyBlock → BuddyBlock) :
    freeExtents (take (bs.modify i f) i) = freeExtents (take bs i) := by
  induction bs generalizing i with
  | nil => simp [take]
  | cons b bs ih =>
    cases i with
    | zero => simp [freeExtents, take]
    | succ i =>
      have htail := ih i
      simp only [take, freeExtents] at htail
      simp only [take, freeExtents, List.modify_succ_cons, List.filter_cons]
      split <;> simp [htail]

theorem take_append {bs : List BuddyBlock} {i : Nat} (hi : i < bs.length) (b : BuddyBlock) :
    take (bs ++ [b]) i = take bs i ++ [b] := by
  induction bs generalizing i with
  | nil => exact absurd hi (Nat.not_lt_zero i)
  | cons c bs ih =>
    cases i with
    | zero => simp [take]
    | succ i => simpa [take] using ih (Nat.lt_of_succ_lt_succ hi)

/-- The block is cut at its end, and the table grows by a turn at most. -/
theorem splitLoop_frame (order i n : Nat) (bs : List BuddyBlock) (hi : i < bs.length) :
    (blockAt (splitLoop order i n bs).2 i).addr = (blockAt bs i).addr ∧
      (splitLoop order i n bs).2.length ≤ bs.length + n := by
  induction n generalizing bs with
  | zero => exact ⟨rfl, Nat.le_refl _⟩
  | succ n ih =>
    simp only [splitLoop]
    split
    · have hat := blockAt_modify hi ({ · with order := (blockAt bs i).order - 1 })
      have hlen : (bs.modify i ({ · with order := (blockAt bs i).order - 1 })).length = bs.length :=
        List.length_modify ..
      generalize bs.modify i ({ · with order := (blockAt bs i).order - 1 }) = bs₁ at hat hlen ⊢
      by_cases hfull : 1024 ≤ bs₁.length
      · simp only [addBlock, if_pos hfull]
        exact ⟨by rw [hat], by omega⟩
      · simp only [addBlock, if_neg hfull]
        generalize (⟨_, (blockAt bs i).order - 1, true⟩ : BuddyBlock) = new
        have hi₁ : i < bs₁.length := by omega
        obtain ⟨haddr, hgrow⟩ := ih (bs₁ ++ [new]) (by simp; omega)
        rw [List.length_append, List.length_singleton] at hgrow
        refine ⟨?_, by omega⟩
        rw [haddr, blockAt_append hi₁, hat]
    · exact ⟨rfl, by dsimp only; omega⟩

/-- Of the free blocks besides the one that is cut no two are partners; with the
table full the upper half is dropped and the lower one stays. -/
theorem splitLoop_merged {top lo hi : Nat} (order i n : Nat) (bs : List BuddyBlock) (hlt : i < bs.length)
    (hfree : (blockAt bs i).free = true) (hle : (blockAt bs i).order ≤ 8)
    (hfit : (blockAt bs i).addr.toNat + 4096 * 2 ^ (blockAt bs i).order ≤ 2 ^ 32)
    (hnat : (extent (blockAt bs i).addr (blockAt bs i).order).Natural)
    (hp : Extent.Packed lo hi (freeExtents bs)) (hm : Extent.Merged top (freeExtents (take bs i))) :
    ((splitLoop order i n bs).1 = true →
      Extent.Merged top (freeExtents (take (splitLoop order i n bs).2 i))) ∧
    ((splitLoop order i n bs).1 = false → Extent.Merged top (freeExtents (splitLoop order i n bs).2)) := by
  induction n generalizing bs with
  | zero => exact ⟨fun _ => hm, fun h => Bool.noConfusion h⟩
  | succ n ih =>
    simp only [splitLoop]
    by_cases hcut : order < (blockAt bs i).order
    · rw [if_pos hcut]
      obtain ⟨k, hk⟩ : ∃ k, (blockAt bs i).order = k + 1 := ⟨(blockAt bs i).order - 1, by omega⟩
      rw [hk] at hle hfit hnat
      have hrecut := recut_halve hlt hfree (by omega) (by omega) (by rw [hk]; exact hfit)
      have hperm := freeExtents_take hlt hfree
      have htaken := freeExtents_taken bs i ({ · with order := k })
      have hat := blockAt_modify hlt ({ · with order := k })
      rw [hk] at hrecut hperm ⊢
      rw [Nat.add_sub_cancel] at hrecut ⊢
      have hlen : (bs.modify i ({ · with order := k })).length = bs.length := List.length_modify ..
      generalize bs.modify i ({ · with order := k }) = bs₁ at hrecut htaken hat hlen ⊢
      rw [extent_double] at hnat hperm
      have half {x : Extent} (hx : x = ⟨(blockAt bs i).addr.toNat, 4096 * 2 ^ k⟩ ∨
          x = ⟨(blockAt bs i).addr.toNat + 4096 * 2 ^ k, 4096 * 2 ^ k⟩) :=
        hm.half hnat (hp.perm hperm) hx
      have hfree₁ : (blockAt bs₁ i).free = true := by
        rw [hat]
        exact hfree
      have hlt₁ : i < bs₁.length := by omega
      by_cases hfull : 1024 ≤ bs₁.length
      · simp only [addBlock, if_pos hfull]
        refine ⟨fun h => Bool.noConfusion h, fun _ => ?_⟩
        apply (half (.inl rfl)).2.subset
        have hperm₁ := freeExtents_take hlt₁ hfree₁
        rw [htaken, hat] at hperm₁
        exact hperm₁.subset
      · simp only [addBlock, if_neg hfull]
        have hupper := extent_upper (by omega) hfit
        generalize hnew : (⟨_, k, true⟩ : BuddyBlock) = new
        have hat₂ : blockAt (bs₁ ++ [new]) i = { blockAt bs i with order := k } := by
          rw [blockAt_append hlt₁, hat]
        have hnewfree : freeExtents [new] = [extent ((blockAt bs i).addr + blockSize k) k] := by
          rw [← hnew]
          rfl
        have hpow : 2 ^ k ≤ 2 ^ (k + 1) := Nat.pow_le_pow_right (by decide) (by omega)
        apply ih (bs₁ ++ [new])
        · simp
          omega
        · rw [hat₂]
          exact hfree
        · rw [hat₂]
          exact Nat.le_of_succ_le hle
        · rw [hat₂]
          dsimp only
          omega
        · rw [hat₂]
          exact (half (.inl rfl)).1
        · rw [freeExtents_append, hnewfree]
          exact (hrecut.packed hp).perm (List.perm_append_singleton _ _).symm
        · rw [take_append hlt₁, freeExtents_append, hnewfree, htaken, hupper]
          exact (half (.inr rfl)).2.subset (List.perm_append_singleton _ _).subset
    · rw [if_neg hcut]
      exact ⟨fun _ => hm, fun h => Bool.noConfusion h⟩

/-! ## Merging -/

theorem xor_blockSize (addr : Word) {order : Nat} (h : order ≤ 8) :
    (addr ^^^ blockSize order).toNat = (extent addr order).partner := by
  rw [BitVec.toNat_xor, blockSize_toNat h]
  rfl

theorem mem_freeExtents_iff {bs : List BuddyBlock} {e : Extent} :
    e ∈ freeExtents bs ↔ ∃ b ∈ bs, b.free = true ∧ extent b.addr b.order = e := by
  simp [freeExtents, and_assoc]

theorem extent_inj {a b : Word} {j k : Nat} (h : extent a j = extent b k) : a = b ∧ j = k := by
  simp only [extent, Extent.mk.injEq, size_eq] at h
  have hk := Nat.pow_right_injective (Nat.le_refl 2) h.2
  exact ⟨BitVec.eq_of_toNat_eq h.1, by omega⟩

/-- A place where no free block of the order is found. -/
theorem findFreeBlock_none {bs : List BuddyBlock} {addr : Word} {order : Nat}
    (h : findFreeBlock bs addr order = none) : extent addr order ∉ freeExtents bs := by
  intro hmem
  obtain ⟨b, hb, hfree, he⟩ := mem_freeExtents_iff.mp hmem
  obtain ⟨haddr, horder⟩ := extent_inj he
  have hnot := List.findIdx?_eq_none_iff.mp h b hb
  simp [hfree, haddr, horder] at hnot

/-- The largest block has no partner. -/
theorem insert_top {es : List Extent} {addr : Word} {order : Nat} (h : 8 ≤ order)
    (hd : 2 ^ (12 + order) ∣ addr.toNat) (hm : Extent.Merged (2 ^ 20) es) :
    Extent.Merged (2 ^ 20) (extent addr order :: es) := by
  apply hm.insert (extent_natural.mpr hd)
  intro hlt
  have hpow : 2 ^ 20 ≤ 2 ^ (12 + order) := Nat.pow_le_pow_right (by decide) (by omega)
  rw [show (extent addr order).size = 2 ^ (12 + order) from size_eq order] at hlt
  omega

/-- In an aligned pool the loop stops only where the partner is not free. -/
theorem mergeLoop_merged {base : Word} (htop : base.toNat + 0x00100000 < 2 ^ 32)
    (hbase : 2 ^ 20 ∣ base.toNat) (n : Nat) (bs : List BuddyBlock) (addr : Word) (order : Nat)
    (hn : 8 ≤ order + n) (hle : order ≤ 8) (hd : 2 ^ (12 + order) ∣ addr.toNat)
    (hp : Extent.Packed base.toNat (base.toNat + 0x00100000) (extent addr order :: freeExtents bs))
    (hm : Extent.Merged (2 ^ 20) (freeExtents bs)) :
    Extent.Merged (2 ^ 20)
      (extent (mergeLoop base n bs addr order).2.1 (mergeLoop base n bs addr order).2.2 ::
        freeExtents (mergeLoop base n bs addr order).1) := by
  induction n generalizing bs addr order with
  | zero =>
    have hlast : 8 ≤ order := by omega
    exact insert_top hlast hd hm
  | succ n ih =>
    simp only [mergeLoop]
    by_cases hlt : order < 8
    · have hsize : (extent addr order).size = 2 ^ (12 + order) := size_eq order
      have hpart := xor_blockSize addr hle
      have hin := Extent.partner_inside hsize hd (by omega) hbase (hp.inside _ List.mem_cons_self)
      have hmin := (Extent.partner_min hsize hd).1
      have hpos := Nat.two_pow_pos (12 + order)
      have hend : (base + poolSize).toNat = base.toNat + 0x00100000 := by
        rw [BitVec.toNat_add, poolSize, BitVec.toNat_ofNat]
        omega
      have hpass : ¬ (addr ^^^ blockSize order < base ∨ base + poolSize ≤ addr ^^^ blockSize order) := by
        rw [BitVec.lt_def, BitVec.le_def, hend, hpart]
        omega
      rw [if_pos hlt, if_neg hpass]
      cases hfind : findFreeBlock bs (addr ^^^ blockSize order) order with
      | none =>
        apply hm.insert (extent_natural.mpr hd)
        intro _ f hf hfs hfp
        apply findFreeBlock_none hfind
        have : extent (addr ^^^ blockSize order) order = f := by
          rw [extent, hpart, ← hfp, ← show f.size = 4096 * 2 ^ order from hfs]
        rw [this]
        exact hf
      | some j =>
        obtain ⟨hj, hfree, haddr, horder⟩ := findFreeBlock_some hfind
        have hperm := freeExtents_take hj hfree
        rw [haddr, horder] at hperm
        have hlower : (if addr ^^^ blockSize order < addr then addr ^^^ blockSize order else addr).toNat =
            min (extent addr order).partner addr.toNat := by
          rw [← hpart]
          split
          · rename_i h
            rw [BitVec.lt_def] at h
            omega
          · rename_i h
            rw [BitVec.lt_def] at h
            omega
        have hd' : 2 ^ (12 + (order + 1)) ∣
            (if addr ^^^ blockSize order < addr then addr ^^^ blockSize order else addr).toNat := by
          rw [hlower]
          exact hmin
        have hm' : Extent.Merged (2 ^ 20) (freeExtents (take bs j)) :=
          hm.subset fun e he => hperm.mem_iff.mpr (List.mem_cons_of_mem _ he)
        exact ih (take bs j) _ (order + 1) (by omega) hlt hd'
          ((recut_merge hlt _).packed (hp.perm (hperm.cons _))) hm'
    · rw [if_neg hlt]
      exact insert_top (Nat.not_lt.mp hlt) hd hm

end Buddy

namespace Pool

open Buddy

variable {base : Word} {s : Pool}

/-- The blocks of an aligned pool: free ones without a free partner, and all of them aligned. -/
structure Tidy (base : Word) (s : Pool) : Prop extends Sound base s where
  merged : Extent.Merged (2 ^ 20) (freeExtents s.buddy.blocks)
  aligned : ∀ o ∈ s.out, 2 ^ (12 + o.2) ∣ o.1.toNat

theorem Sound.free_packed (h : Sound base s) :
    Extent.Packed base.toNat (base.toNat + 0x00100000) (freeExtents s.buddy.blocks) :=
  h.packed.sublist (List.sublist_append_left _ _)

theorem Tidy.alloc (hbase : 0 < base.toNat) (htop : base.toNat + 0x00100000 < 2 ^ 32)
    (h : Tidy base s) (order : Nat) :
    Tidy base (s.next (.alloc order)) ∧
      ((s.buddy.buddyAlloc order).1 ≠ 0#32 →
        2 ^ (12 + order) ∣ (s.buddy.buddyAlloc order).1.toNat) := by
  have hsound := (h.toSound.alloc hbase htop order).1
  rcases buddyAlloc_cases s.buddy order with hz | ⟨i, found, he⟩
  · have hs : s.next (.alloc order) = s := by simp [next, hz]
    rw [hs, hz]
    exact ⟨h, fun hne => absurd rfl hne⟩
  · have hmem := mem_freeExtents found.lt found.free
    have hlive : extent _ _ ∈ s.live := List.mem_append_left _ hmem
    have hin := h.packed.inside _ hlive
    simp only [extent] at hin
    have hnat := h.merged.natural _ hmem
    have hothers : Extent.Merged (2 ^ 20) (freeExtents (take s.buddy.blocks i)) :=
      h.merged.subset fun e hm =>
        (freeExtents_take found.lt found.free).mem_iff.mpr (List.mem_cons_of_mem _ hm)
    obtain ⟨hdone, hfull⟩ := splitLoop_merged order i (blockAt s.buddy.blocks i).order s.buddy.blocks
      found.lt found.free (h.order_le hlive) (by omega) hnat h.free_packed hothers
    have haddr := (splitLoop_frame order i (blockAt s.buddy.blocks i).order s.buddy.blocks found.lt).1
    have hdvd : 2 ^ (12 + order) ∣ (blockAt s.buddy.blocks i).addr.toNat :=
      Nat.dvd_trans (Nat.pow_dvd_pow 2 (Nat.add_le_add_left found.large 12)) (extent_natural.mp hnat)
    generalize splitLoop order i (blockAt s.buddy.blocks i).order s.buddy.blocks = r
      at he hdone hfull haddr
    obtain ⟨ok, bs⟩ := r
    dsimp only at he hdone hfull haddr
    cases ok with
    | true =>
      rw [if_pos rfl, haddr] at he
      rw [he]
      refine ⟨⟨hsound, ?_, ?_⟩, fun _ => hdvd⟩
      · simp only [next, he]
        exact hdone rfl
      · simp only [next, he]
        intro o ho
        split at ho
        · exact h.aligned o ho
        · rcases List.mem_cons.mp ho with rfl | ho
          · exact hdvd
          · exact h.aligned o ho
    | false =>
      rw [if_neg (by decide)] at he
      rw [he]
      refine ⟨⟨hsound, ?_, ?_⟩, fun hne => absurd rfl hne⟩
      · simp only [next, he]
        exact hfull rfl
      · simp only [next, he]
        exact h.aligned

theorem Tidy.free (htop : base.toNat + 0x00100000 < 2 ^ 32) (hbase : 2 ^ 20 ∣ base.toNat)
    (h : Tidy base s) {addr : Word} {order : Nat} (hmem : (addr, order) ∈ s.out) :
    Tidy base (s.next (.free addr order)) := by
  have hsound := (h.toSound.free htop hmem).1
  have hlive := live_perm hmem
  have hle := h.order_le (hlive.mem_iff.mpr List.mem_cons_self)
  have hmerged := mergeLoop_merged htop hbase 8 s.buddy.blocks addr order (by omega) hle
    (h.aligned _ hmem) ((h.packed.perm hlive).sublist (List.sublist_append_left _ _)) h.merged
  have haligned (o : Word × Nat) (ho : o ∈ s.out.erase (addr, order)) : 2 ^ (12 + o.2) ∣ o.1.toNat :=
    h.aligned o (List.mem_of_mem_erase ho)
  rw [h.free_eq htop hmem] at hsound ⊢
  generalize mergeLoop base 8 s.buddy.blocks addr order = r at hsound hmerged ⊢
  obtain ⟨bs, addr', order'⟩ := r
  dsimp only at hmerged
  refine ⟨hsound, ?_, haligned⟩
  dsimp only [addBlock]
  split
  · exact hmerged.subset (List.subset_cons_self _ _)
  · rw [Option.getD_some, freeExtents_append]
    exact hmerged.subset (List.perm_append_singleton _ _).subset

theorem Tidy.start {p : Pmm} (he : (buddyInit p).1 = ⟨[⟨base, 8, true⟩], base, true⟩)
    (hbase : 2 ^ 20 ∣ base.toNat) : Tidy base (boot p) := by
  have hb : boot p = ⟨⟨[⟨base, 8, true⟩], base, true⟩, []⟩ := by rw [boot, he]
  refine ⟨(Sound.start he).1, ?_, ?_⟩
  · rw [hb]
    exact insert_top (Nat.le_refl 8) hbase
      ⟨fun _ h => absurd h List.not_mem_nil, fun _ h => absurd h List.not_mem_nil⟩
  · rw [hb]
    exact fun _ h => absurd h List.not_mem_nil

/-- A base that is not aligned to the pool: the lowest bit that is set is the size of a block. -/
theorem lowest_bit {b k n : Nat} (hk : 2 ^ k ∣ b) (hn : ¬ 2 ^ (k + n) ∣ b) :
    ∃ o, o < n ∧ 2 ^ (k + o) ∣ b ∧ ¬ 2 ^ (k + o + 1) ∣ b := by
  induction n with
  | zero => exact absurd hk hn
  | succ n ih =>
    by_cases h : 2 ^ (k + n) ∣ b
    · exact ⟨n, Nat.lt_succ_self n, h, hn⟩
    · obtain ⟨o, ho, hd⟩ := ih h
      exact ⟨o, Nat.lt_succ_of_lt ho, hd⟩

/-- A block of the same order as the request is handed out as it is. -/
theorem buddyAlloc_exact {b : Buddy} {order i : Nat} (hinit : b.initialized = true) (hle : order ≤ 8)
    (hfind : b.blocks.findIdx? (fun e => e.free && order ≤ e.order) = some i)
    (hat : (blockAt b.blocks i).order = order) :
    b.buddyAlloc order = ((blockAt b.blocks i).addr, { b with blocks := take b.blocks i }) := by
  have hsplit (n : Nat) : splitLoop order i n b.blocks = (true, b.blocks) := by
    cases n with
    | zero => rfl
    | succ n => simp [splitLoop, hat]
  simp [buddyAlloc, hinit, hfind, hsplit]
  omega

/-- One free block, the whole pool, and it can be allocated. -/
def Whole (b : Buddy) : Prop :=
  b.blocks.filter (·.free) = [⟨b.poolBase, 8, true⟩] ∧ (b.buddyAlloc 8).1 ≠ 0#32

theorem Tidy.whole (hpos : 0 < base.toNat) (hbase : 2 ^ 20 ∣ base.toNat) (h : Tidy base s)
    (ht : Extent.total s.live = 2 ^ 8 * 4096) (hout : s.out = []) : Whole s.buddy := by
  have hlive : s.live = freeExtents s.buddy.blocks := by simp [live, outExtents, hout]
  have hfree : freeExtents s.buddy.blocks = [⟨base.toNat, 2 ^ 20⟩] := by
    rw [hlive] at ht
    exact h.merged.whole h.free_packed ht hbase
  have hfilter : s.buddy.blocks.filter (·.free) = [⟨base, 8, true⟩] := by
    obtain ⟨⟨addr, order, free⟩, hb, he⟩ := List.map_eq_singleton_iff.mp hfree
    have hmem : (⟨addr, order, free⟩ : BuddyBlock) ∈ s.buddy.blocks.filter (·.free) := by simp [hb]
    have hset : free = true := (List.mem_filter.mp hmem).2
    obtain ⟨rfl, rfl⟩ := extent_inj (b := base) (k := 8) he
    rw [hb, hset]
  refine ⟨by rw [h.poolBase]; exact hfilter, ?_⟩
  have hmem : (⟨base, 8, true⟩ : BuddyBlock) ∈ s.buddy.blocks.filter (·.free) := by simp [hfilter]
  cases hfind : s.buddy.blocks.findIdx? (fun e => e.free && 8 ≤ e.order) with
  | none =>
    have hnone := List.findIdx?_eq_none_iff.mp hfind _ (List.mem_of_mem_filter hmem)
    simp at hnone
  | some i =>
    have hf := found hfind
    have heq := mem_freeExtents hf.lt hf.free
    rw [hfree, List.mem_singleton] at heq
    obtain ⟨haddr, horder⟩ := extent_inj (b := base) (k := 8) heq
    rw [buddyAlloc_exact h.initialized (Nat.le_refl 8) hfind horder, haddr]
    intro hz
    have hzero : base = 0#32 := hz
    rw [hzero] at hpos
    exact absurd hpos (by decide)

/-- In a pool whose base has the bit of a block's size set, the partner of the
first block of that size lies below the pool. -/
theorem skewed_xor {order : Nat} (ho : order < 8) (hd : 2 ^ (12 + order) ∣ base.toNat)
    (hodd : ¬ 2 ^ (12 + order + 1) ∣ base.toNat) : base ^^^ blockSize order < base := by
  rw [BitVec.lt_def, xor_blockSize base (Nat.le_of_lt ho)]
  have hpos := Nat.two_pow_pos (12 + order)
  rcases Extent.partner_cases (e := extent base order) (size_eq order) hd with ⟨hnext, -⟩ | ⟨hge, -, hp⟩
  · exact absurd hnext hodd
  · have hge' : 2 ^ (12 + order) ≤ base.toNat := hge
    rw [hp]
    show base.toNat - _ < _
    omega

/-- Such a block is allocated first and given back: it stays as it is. -/
theorem skewed_run {p : Pmm} (hpos : 0 < base.toNat) (htop : base.toNat + 0x00100000 < 2 ^ 32)
    (he : (buddyInit p).1 = ⟨[⟨base, 8, true⟩], base, true⟩) {order : Nat} (ho : order < 8)
    (hd : 2 ^ (12 + order) ∣ base.toNat) (hodd : ¬ 2 ^ (12 + order + 1) ∣ base.toNat) :
    ∃ s, calls.Reach Room (boot p) s ∧ s.out = [] ∧ ⟨base, order, true⟩ ∈ s.buddy.blocks := by
  have hb : boot p = ⟨⟨[⟨base, 8, true⟩], base, true⟩, []⟩ := by rw [boot, he]
  have hsound := (Sound.start he).1
  rw [hb] at hsound ⊢
  have hfind : [(⟨base, 8, true⟩ : BuddyBlock)].findIdx? (fun e => e.free && order ≤ e.order) = some 0 := by
    simp [List.findIdx?_cons, Nat.le_of_lt ho]
  have hat : blockAt [(⟨base, 8, true⟩ : BuddyBlock)] 0 = ⟨base, 8, true⟩ := rfl
  obtain ⟨-, -, hspec⟩ := splitLoop_spec order 0 8 [⟨base, 8, true⟩] (by simp) rfl (Nat.le_refl _)
    (Nat.le_of_lt ho) (Nat.le_refl _) (by rw [hat]; dsimp only; omega)
  obtain ⟨haddr, hlen⟩ := splitLoop_frame order 0 8 [⟨base, 8, true⟩] (by simp)
  have halloc : Buddy.buddyAlloc ⟨[⟨base, 8, true⟩], base, true⟩ order =
      (base, ⟨take (splitLoop order 0 8 [⟨base, 8, true⟩]).2 0, base, true⟩) := by
    rcases hspec with ⟨hok, -⟩ | ⟨-, hmany, -⟩
    · simp [buddyAlloc, hfind, hat, hok, haddr]
      omega
    · rw [hat] at hmany
      simp at hmany
      omega
  have hlen' : (take (splitLoop order 0 8 [⟨base, 8, true⟩]).2 0).length ≤ 9 := by
    rw [take, List.length_modify]
    exact hlen
  generalize take (splitLoop order 0 8 [⟨base, 8, true⟩]).2 0 = bs at halloc hlen'
  have hne : base ≠ 0#32 := by
    rintro rfl
    exact absurd hpos (by decide)
  have hnext : Pool.next ⟨⟨[⟨base, 8, true⟩], base, true⟩, []⟩ (.alloc order) =
      ⟨⟨bs, base, true⟩, [(base, order)]⟩ := by
    simp [next, halloc, hne]
  have hreach : calls.Reach Room ⟨⟨[⟨base, 8, true⟩], base, true⟩, []⟩
      ⟨⟨bs, base, true⟩, [(base, order)]⟩ := by
    rw [← hnext]
    refine .step (PoolCall.alloc order) .start trivial fun i hi => ?_
    have hzero : i = 0 := by
      simp only [hfind, Option.mem_some_iff] at hi
      exact hi.symm
    rw [hzero]
    simp [hat]
    omega
  have hsound' := (hsound.alloc hpos htop order).1
  rw [hnext] at hsound'
  have hmem : (base, order) ∈ [(base, order)] := List.mem_cons_self
  have hlow := skewed_xor ho hd hodd
  have hmerge : mergeLoop base 8 bs base order = (bs, base, order) := by
    simp [mergeLoop, ho, hlow]
  refine ⟨_, .step (PoolCall.free base order) hreach hmem (show bs.length < 1024 by omega), ?_, ?_⟩
  · simp [calls, next]
  · show _ ∈ (Pool.next _ _).buddy.blocks
    rw [hsound'.free_eq htop hmem]
    simp [hmerge, addBlock, show ¬ 1024 ≤ bs.length by omega]

section Runs

variable {entries : List E820Entry} {kernelEndSym : Word} {f : Frames}

theorem reach_tidy {P : Pool → PoolCall → Prop} {p : Pmm}
    (hpos : 0 < base.toNat) (htop : base.toNat + 0x00100000 < 2 ^ 32)
    (he : (buddyInit p).1 = ⟨[⟨base, 8, true⟩], base, true⟩) (hbase : 2 ^ 20 ∣ base.toNat)
    (h : calls.Reach P (boot p) s) : Tidy base s := by
  apply h.invariant (I := Tidy base)
  · exact Tidy.start he hbase
  · intro s c hs hc _
    cases c with
    | alloc order => exact (hs.alloc hpos htop order).1
    | free addr order => exact hs.free htop hbase hc

/-- Every block is aligned to its size exactly in the pools that are, also with
the table full. -/
theorem reach_aligned_iff
    (hf : Frames.calls.Reach (fun _ _ => True) (Frames.boot entries kernelEndSym) f)
    (hinit : (buddyInit f.pmm).1.initialized = true) :
    (∀ s, calls.Reach (fun _ _ => True) (boot f.pmm) s → ∀ order,
      (s.buddy.buddyAlloc order).1 ≠ 0#32 → 4096 * 2 ^ order ∣ (s.buddy.buddyAlloc order).1.toNat) ↔
    0x00100000 ∣ (buddyInit f.pmm).1.poolBase.toNat := by
  obtain ⟨base, hpos, _, htop, he⟩ := buddyInit_cases (frames_ok hf) hinit
  rw [he]
  constructor
  · intro hall
    -- the pool itself is the first block that can be asked for
    have halloc : ((boot f.pmm).buddy.buddyAlloc 8).1 = base := by
      rw [boot, he, buddyAlloc_exact rfl (Nat.le_refl 8) rfl rfl]
      rfl
    have hne : base ≠ 0#32 := by
      rintro rfl
      exact absurd hpos (by decide)
    have hfirst := hall _ .start 8
    rw [halloc] at hfirst
    exact hfirst hne
  · intro hbase s hs order hne
    rw [size_eq]
    exact ((reach_tidy hpos htop he hbase hs).alloc hpos htop order).2 hne

/-- Blocks that are all given back make up the pool again exactly if it is
aligned to its size, as long as the table has room. -/
theorem reach_whole_iff
    (hf : Frames.calls.Reach (fun _ _ => True) (Frames.boot entries kernelEndSym) f)
    (hinit : (buddyInit f.pmm).1.initialized = true) :
    (∀ s, calls.Reach Room (boot f.pmm) s → s.out = [] → Whole s.buddy) ↔
    0x00100000 ∣ (buddyInit f.pmm).1.poolBase.toNat := by
  obtain ⟨base, hpos, hpage, htop, he⟩ := buddyInit_cases (frames_ok hf) hinit
  rw [he]
  constructor
  · intro hall
    by_contra hbase
    obtain ⟨o, ho, hd, hodd⟩ :=
      lowest_bit (k := 12) (n := 8) (Nat.dvd_of_mod_eq_zero hpage) hbase
    obtain ⟨s, hs, hout, hmem⟩ := skewed_run hpos htop he ho hd hodd
    have hfree : (⟨base, o, true⟩ : BuddyBlock) ∈ s.buddy.blocks.filter (·.free) :=
      List.mem_filter.mpr ⟨hmem, rfl⟩
    rw [(hall s hs hout).1, List.mem_singleton] at hfree
    have horder : o = 8 := congrArg BuddyBlock.order hfree
    omega
  · intro hbase s hs hout
    have htotal := (reach_conserved hf hinit hs).1
    rw [← Extent.total_append] at htotal
    exact (reach_tidy hpos htop he hbase hs).whole hpos hbase htotal hout

end Runs

/-- One megabyte of RAM, aligned to its size. -/
def alignedMegabyte : List E820Entry := [⟨0x00100000#64, 0x00100000#64, 1#32⟩]

theorem alignedMegabyte_init : (buddyInit (Frames.boot alignedMegabyte 0x00010000#32).pmm).1 =
    ⟨[⟨0x00100000#32, 8, true⟩], 0x00100000#32, true⟩ := by
  have hfresh : (Frames.boot alignedMegabyte 0x00010000#32).pmm.Fresh 256 512 := by
    apply alone_fresh (by decide) (by decide +kernel) (by decide)
    intro f
    simp only [E820Entry.Covers]
    simp
    omega
  rw [buddyInit_fresh hfresh (by decide) (by decide)]
  rfl

theorem alignedMegabyte_aligned :
    (buddyInit (Frames.boot alignedMegabyte 0x00010000#32).pmm).1.initialized = true ∧ ∀ s,
    calls.Reach (fun _ _ => True) (boot (Frames.boot alignedMegabyte 0x00010000#32).pmm) s → ∀ order,
      (s.buddy.buddyAlloc order).1 ≠ 0#32 → 4096 * 2 ^ order ∣ (s.buddy.buddyAlloc order).1.toNat := by
  have hinit : (buddyInit (Frames.boot alignedMegabyte 0x00010000#32).pmm).1.initialized = true := by
    rw [alignedMegabyte_init]
  apply And.intro hinit
  apply (reach_aligned_iff .start hinit).mpr
  rw [alignedMegabyte_init]
  decide

theorem alignedMegabyte_whole :
    (buddyInit (Frames.boot alignedMegabyte 0x00010000#32).pmm).1.initialized = true ∧ ∀ s,
    calls.Reach Room (boot (Frames.boot alignedMegabyte 0x00010000#32).pmm) s → s.out = [] →
      Whole s.buddy := by
  have hinit : (buddyInit (Frames.boot alignedMegabyte 0x00010000#32).pmm).1.initialized = true := by
    rw [alignedMegabyte_init]
  apply And.intro hinit
  apply (reach_whole_iff .start hinit).mpr
  rw [alignedMegabyte_init]
  decide

/-- The pool that starts at 0x103000: four pages of it are not on a boundary of four pages. -/
theorem oneMegabyte_misaligned :
    ∃ s, calls.Reach (fun _ _ => True) (boot (Frames.boot oneMegabyte 0x00010000#32).pmm) s ∧
      (s.buddy.buddyAlloc 2).1 ≠ 0#32 ∧ ¬ 4096 * 2 ^ 2 ∣ (s.buddy.buddyAlloc 2).1.toNat := by
  refine ⟨_, .start, ?_⟩
  rw [oneMegabyte_pool]
  decide +kernel

/-- Its first page is allocated and given back, and does not merge. -/
theorem oneMegabyte_left_cut :
    ∃ s, calls.Reach (fun _ _ => True) (boot (Frames.boot oneMegabyte 0x00010000#32).pmm) s ∧
      s.out = [] ∧ (s.buddy.buddyAlloc 8).1 = 0#32 ∧ ¬ Whole s.buddy := by
  have hpool := oneMegabyte_pool
  have hrun : calls.Accepts (fun _ _ => True) (boot (Frames.boot oneMegabyte 0x00010000#32).pmm)
      [.alloc 0, .free 0x00103000#32 0] := by
    rw [hpool]
    decide +kernel
  have hend : (calls.after (boot (Frames.boot oneMegabyte 0x00010000#32).pmm)
        [.alloc 0, .free 0x00103000#32 0]).out = [] ∧
      ((calls.after (boot (Frames.boot oneMegabyte 0x00010000#32).pmm)
        [.alloc 0, .free 0x00103000#32 0]).buddy.buddyAlloc 8).1 = 0#32 := by
    rw [hpool]
    decide +kernel
  exact ⟨_, Machine.Reach.start.accepts hrun, hend.1, hend.2, fun h => h.2 hend.2⟩

end Pool

end SengOS
