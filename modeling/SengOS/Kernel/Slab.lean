import Mathlib.Data.Fin.VecNotation
import Mathlib.Data.List.Nodup
import Mathlib.Data.List.Perm.Subperm
import SengOS.Lib.Bytes
import SengOS.Lib.Extents
import SengOS.Lib.Links
import SengOS.Lib.Machine

/-!
# The slab allocator

`slab.c`: four pages of objects of 32, 64, 128 and 256 bytes. The list of the
free objects of a page runs through the objects themselves, in their first four
bytes, so that it stands in the same memory that callers write to.
-/

namespace SengOS

/-- `slab_t`, with pointers as addresses. -/
structure Slab where
  addr : Word
  objectSize : Word
  freeCount : Word
  freeList : Word
  next : Word

/-- The memory beside `slabs` and `slab_initialized`. -/
structure SlabHeap where
  mem : Buf (2 ^ 32)
  slabs : Fin 4 → Slab
  slabInitialized : Bool

namespace SlabHeap

/-- `cache_sizes`. -/
def cacheSizes : Fin 4 → Word := ![32#32, 64#32, 128#32, 256#32]

/-- `cache_index`. -/
def cacheIndex (size : Word) : Option (Fin 4) := (List.finRange 4).find? fun i => size ≤ cacheSizes i

/-- `slab_memory[index]`. -/
def slabPage (slabMemory : Word) (index : Fin 4) : Word :=
  slabMemory + BitVec.ofNat 32 index.val * 4096#32

def setSlab (h : SlabHeap) (i : Fin 4) (v : Slab) : SlabHeap :=
  { h with slabs := Function.update h.slabs i v }

/-- `object->next = slabs[i].free_list` and `slabs[i].free_list = object`. -/
def link (h : SlabHeap) (i : Fin 4) (object : Word) : SlabHeap :=
  { h with mem := h.mem.setWord object.toNat (h.slabs i).freeList }.setSlab i
    { h.slabs i with freeList := object }

/-- `create_slab`. -/
def createSlab (slabMemory : Word) (h : SlabHeap) (index : Fin 4) : SlabHeap :=
  let objectSize := cacheSizes index
  let count := 4096#32 / objectSize
  let base := slabPage slabMemory index
  let h := h.setSlab index ⟨base, objectSize, count, 0#32, 0#32⟩
  (List.range count.toNat).foldl (fun h i => h.link index (base + BitVec.ofNat 32 i * objectSize)) h

/-- `slab_init`. -/
def slabInit (slabMemory : Word) (h : SlabHeap) : SlabHeap :=
  { (List.finRange 4).foldl (createSlab slabMemory) h with slabInitialized := true }

/-- `kmalloc`: the address, 0 for null. -/
def kmalloc (h : SlabHeap) (size : Word) : Word × SlabHeap :=
  if !h.slabInitialized || size == 0#32 then (0#32, h)
  else
    match cacheIndex size with
    | none => (0#32, h)
    | some index =>
      let slab := h.slabs index
      if slab.freeList = 0#32 then (0#32, h)
      else
        let object := slab.freeList
        (object, h.setSlab index { slab with
          freeList := h.mem.word object.toNat
          freeCount := if 0#32 < slab.freeCount then slab.freeCount - 1#32 else slab.freeCount })

/-- `kfree`: the page that holds the address decides which list takes it. -/
def kfree (h : SlabHeap) (ptr : Word) : SlabHeap :=
  if !h.slabInitialized || ptr == 0#32 then h
  else
    match (List.finRange 4).find? fun i =>
        (h.slabs i).addr ≤ ptr && ptr < (h.slabs i).addr + 4096#32 with
    | none => h
    | some i =>
      let h := h.link i ptr
      h.setSlab i { h.slabs i with freeCount := (h.slabs i).freeCount + 1#32 }

/-! ## Objects -/

/-- Where the linker puts `slab_memory`: on a page, not at the null address, and
not up to the end of the address space. -/
structure Placed (slabMemory : Word) : Prop where
  aligned : 4096 ∣ slabMemory.toNat
  nonnull : 0 < slabMemory.toNat
  fits : slabMemory.toNat + 4 * 4096 < 2 ^ 32

/-- The size of the objects of a cache. -/
def classSize (i : Fin 4) : Nat := (cacheSizes i).toNat

/-- One of the objects that the page of cache `i` is cut into. -/
def IsObject (slabMemory : Word) (i : Fin 4) (a : Word) : Prop :=
  ∃ k, k < 4096 / classSize i ∧ a.toNat = slabMemory.toNat + i.val * 4096 + k * classSize i

theorem classSize_facts : ∀ i : Fin 4, 32 ≤ classSize i ∧ classSize i ≤ 256 ∧
    classSize i * (4096 / classSize i) = 4096 ∧ (4096#32 / cacheSizes i).toNat = 4096 / classSize i := by
  decide

variable {slabMemory : Word} {i j : Fin 4} {a b : Word}

theorem slabPage_toNat (hp : Placed slabMemory) (i : Fin 4) :
    (slabPage slabMemory i).toNat = slabMemory.toNat + i.val * 4096 := by
  have hi := i.isLt
  have hfits := hp.fits
  rw [slabPage, BitVec.toNat_add, BitVec.toNat_mul, BitVec.toNat_ofNat, BitVec.toNat_ofNat]
  omega

/-- An object lies in its page. -/
theorem IsObject.inside (h : IsObject slabMemory i a) :
    slabMemory.toNat + i.val * 4096 ≤ a.toNat ∧
      a.toNat + classSize i ≤ slabMemory.toNat + i.val * 4096 + 4096 := by
  obtain ⟨k, hk, ha⟩ := h
  obtain ⟨-, -, hcount, -⟩ := classSize_facts i
  have hend : (k + 1) * classSize i ≤ 4096 := by
    calc (k + 1) * classSize i ≤ (4096 / classSize i) * classSize i := Nat.mul_le_mul_right _ hk
      _ = 4096 := by rw [Nat.mul_comm, hcount]
  rw [Nat.add_mul, Nat.one_mul] at hend
  omega

theorem IsObject.dvd (hp : Placed slabMemory) (h : IsObject slabMemory i a) : classSize i ∣ a.toNat := by
  obtain ⟨k, -, ha⟩ := h
  have hpage : classSize i ∣ 4096 := ⟨_, (classSize_facts i).2.2.1.symm⟩
  rw [ha]
  apply Nat.dvd_add
  · exact Nat.dvd_add (Nat.dvd_trans hpage hp.aligned) (Nat.dvd_mul_left_of_dvd hpage _)
  · exact Nat.dvd_mul_left _ _

theorem IsObject.ne_zero (hp : Placed slabMemory) (h : IsObject slabMemory i a) : a ≠ 0#32 := by
  rintro rfl
  have hin := h.inside.1
  have hpos := hp.nonnull
  simp only [BitVec.toNat_ofNat] at hin
  omega

theorem IsObject.cache_eq (h : IsObject slabMemory i a) (h' : IsObject slabMemory j a) : i = j := by
  have hin := h.inside
  have hin' := h'.inside
  have hsize := (classSize_facts i).1
  have hsize' := (classSize_facts j).1
  apply Fin.ext
  omega

/-- Two objects of any caches do not overlap. -/
theorem IsObject.apart (h : IsObject slabMemory i a) (h' : IsObject slabMemory j b) (hne : a ≠ b) :
    Extent.Apart ⟨a.toNat, classSize i⟩ ⟨b.toNat, classSize j⟩ := by
  intro x hx hx'
  unfold Extent.Has at hx hx'
  dsimp only at hx hx'
  by_cases hij : i = j
  · subst hij
    obtain ⟨k, -, ha⟩ := h
    obtain ⟨l, -, hb⟩ := h'
    rcases Nat.lt_trichotomy k l with hkl | rfl | hkl
    · have := Nat.mul_le_mul_right (classSize i) hkl
      rw [Nat.succ_mul] at this
      omega
    · exact hne (BitVec.eq_of_toNat_eq (ha.trans hb.symm))
    · have := Nat.mul_le_mul_right (classSize i) hkl
      rw [Nat.succ_mul] at this
      omega
  · have hin := h.inside
    have hin' := h'.inside
    have hval : i.val ≠ j.val := fun e => hij (Fin.ext e)
    omega

/-! ## The free lists -/

/-- The link in the first four bytes of an object. -/
def nextObject (h : SlabHeap) (a : Word) : Word := h.mem.word a.toNat

variable {h h' h'' : SlabHeap} {v : Slab} {objs : List Word}

@[simp] theorem setSlab_same (h : SlabHeap) (i : Fin 4) (v : Slab) : (h.setSlab i v).slabs i = v := by
  simp [setSlab]

theorem setSlab_ne (h : SlabHeap) (v : Slab) (hij : j ≠ i) : (h.setSlab i v).slabs j = h.slabs j := by
  simp [setSlab, hij]

/-- Only cache `i` and the links in its page may have changed. -/
structure Elsewhere (slabMemory : Word) (i : Fin 4) (h h' : SlabHeap) : Prop where
  slabs : ∀ j, j ≠ i → h'.slabs j = h.slabs j
  links : ∀ j, j ≠ i → ∀ a, IsObject slabMemory j a → h'.nextObject a = h.nextObject a

theorem Elsewhere.refl (h : SlabHeap) : Elsewhere slabMemory i h h :=
  ⟨fun _ _ => rfl, fun _ _ _ _ => rfl⟩

theorem Elsewhere.trans (e : Elsewhere slabMemory i h h') (e' : Elsewhere slabMemory i h' h'') :
    Elsewhere slabMemory i h h'' :=
  ⟨fun j hj => (e'.slabs j hj).trans (e.slabs j hj),
    fun j hj a ha => (e'.links j hj a ha).trans (e.links j hj a ha)⟩

theorem Elsewhere.setSlab (h : SlabHeap) (i : Fin 4) (v : Slab) :
    Elsewhere slabMemory i h (h.setSlab i v) :=
  ⟨fun _ hj => setSlab_ne h v hj, fun _ _ _ _ => rfl⟩

@[simp] theorem link_same (h : SlabHeap) (i : Fin 4) (a : Word) :
    (h.link i a).slabs i = { h.slabs i with freeList := a } := setSlab_same _ i _

/-- A link is stored in an object: the other objects keep theirs. -/
theorem nextObject_link_ne (ha : IsObject slabMemory i a) (hb : IsObject slabMemory j b) (hne : b ≠ a) :
    (h.link i a).nextObject b = h.nextObject b := by
  apply Buf.word_setWord_ne
  have hapart := hb.apart ha hne
  have hsize := (classSize_facts i).1
  have hsize' := (classSize_facts j).1
  by_contra hover
  have hx : Extent.Has ⟨b.toNat, classSize j⟩ (max a.toNat b.toNat) := by
    unfold Extent.Has
    dsimp only
    omega
  have hx' : Extent.Has ⟨a.toNat, classSize i⟩ (max a.toNat b.toNat) := by
    unfold Extent.Has
    dsimp only
    omega
  exact hapart _ hx hx'

theorem nextObject_link_self (hp : Placed slabMemory) (ha : IsObject slabMemory i a) :
    (h.link i a).nextObject a = (h.slabs i).freeList := by
  have hin := ha.inside
  have hfits := hp.fits
  have hsize := (classSize_facts i).1
  have hi := i.isLt
  apply Buf.word_setWord_self
  omega

theorem Elsewhere.link (ha : IsObject slabMemory i a) : Elsewhere slabMemory i h (h.link i a) := by
  refine ⟨fun j hj => setSlab_ne _ _ hj, fun j hj b hb => nextObject_link_ne ha hb ?_⟩
  rintro rfl
  exact hj (hb.cache_eq ha)

/-- The free list of a cache, each entry an object of its page. -/
structure Listed (slabMemory : Word) (h : SlabHeap) (i : Fin 4) (objs : List Word) : Prop where
  links : Links h.nextObject 0#32 (h.slabs i).freeList objs
  objects : ∀ a ∈ objs, IsObject slabMemory i a

theorem Listed.link (hp : Placed slabMemory) (hl : Listed slabMemory h i objs)
    (ha : IsObject slabMemory i a) (hnew : a ∉ objs) : Listed slabMemory (h.link i a) i (a :: objs) := by
  constructor
  · rw [link_same]
    apply hl.links.push (ha.ne_zero hp) (nextObject_link_self hp ha)
    intro b hb
    apply nextObject_link_ne ha (hl.objects b hb)
    rintro rfl
    exact hnew hb
  · intro b hb
    rcases List.mem_cons.mp hb with rfl | hb
    · exact ha
    · exact hl.objects b hb

/-- A cache whose objects `out` are handed out. -/
structure Cache (slabMemory : Word) (h : SlabHeap) (out : List Word) (i : Fin 4) : Prop where
  addr : (h.slabs i).addr = slabPage slabMemory i
  list : ∃ objs, Listed slabMemory h i objs ∧
    (∀ a, IsObject slabMemory i a → (a ∈ objs ↔ a ∉ out)) ∧ (h.slabs i).freeCount.toNat = objs.length

variable {out out' : List Word}

/-- What another cache does, and what is done with its objects. -/
theorem Cache.elsewhere (c : Cache slabMemory h out j) (e : Elsewhere slabMemory i h h') (hij : j ≠ i)
    (hout : ∀ a, IsObject slabMemory j a → (a ∈ out' ↔ a ∈ out)) : Cache slabMemory h' out' j := by
  obtain ⟨objs, hl, hmem, hcount⟩ := c.list
  have hslab := e.slabs j hij
  refine ⟨by rw [hslab]; exact c.addr, objs, ⟨?_, hl.objects⟩, fun a ha => ?_, by rw [hslab]; exact hcount⟩
  · rw [hslab]
    exact hl.links.congr fun a ha => e.links j hij a (hl.objects a ha)
  · rw [hmem a ha, hout a ha]

/-! ## Creation -/

/-- `base + i * object_size`. -/
theorem object_toNat (hp : Placed slabMemory) {k : Nat} (hk : k < 4096 / classSize i) :
    (slabPage slabMemory i + BitVec.ofNat 32 k * cacheSizes i).toNat =
      slabMemory.toNat + i.val * 4096 + k * classSize i := by
  obtain ⟨-, -, hcount, -⟩ := classSize_facts i
  have hin : k * classSize i ≤ 4096 := by
    calc k * classSize i ≤ (4096 / classSize i) * classSize i :=
          Nat.mul_le_mul_right _ (Nat.le_of_lt hk)
      _ = 4096 := by rw [Nat.mul_comm, hcount]
  have hfew : 4096 / classSize i ≤ 4096 := Nat.div_le_self _ _
  have hi := i.isLt
  have hfits := hp.fits
  have hsmall : BitVec.toNat (BitVec.ofNat 32 k) = k := by
    rw [BitVec.toNat_ofNat]
    omega
  rw [BitVec.toNat_add, BitVec.toNat_mul, hsmall, slabPage_toNat hp]
  change (_ + k * classSize i % _) % _ = _
  omega

theorem isObject_iff (hp : Placed slabMemory) : IsObject slabMemory i a ↔
    ∃ k, k < 4096 / classSize i ∧ a = slabPage slabMemory i + BitVec.ofNat 32 k * cacheSizes i := by
  constructor
  · rintro ⟨k, hk, ha⟩
    exact ⟨k, hk, BitVec.eq_of_toNat_eq (ha.trans (object_toNat hp hk).symm)⟩
  · rintro ⟨k, hk, rfl⟩
    exact ⟨k, hk, object_toNat hp hk⟩

theorem object_inj (hp : Placed slabMemory) {k l : Nat} (hk : k < 4096 / classSize i)
    (hl : l < 4096 / classSize i) (he : slabPage slabMemory i + BitVec.ofNat 32 k * cacheSizes i =
      slabPage slabMemory i + BitVec.ofNat 32 l * cacheSizes i) : k = l := by
  have hnat := congrArg BitVec.toNat he
  rw [object_toNat hp hk, object_toNat hp hl] at hnat
  have hsize := (classSize_facts i).1
  exact Nat.eq_of_mul_eq_mul_right (by omega : 0 < classSize i) (by omega)

/-- After `n` turns of the loop the first `n` objects are in the list. -/
theorem createLoop_spec (hp : Placed slabMemory) (hnil : (h.slabs i).freeList = 0#32) (n : Nat)
    (hn : n ≤ 4096 / classSize i) : ∃ h' objs,
      (List.range n).foldl
        (fun h k => h.link i (slabPage slabMemory i + BitVec.ofNat 32 k * cacheSizes i)) h = h' ∧
      Elsewhere slabMemory i h h' ∧ (h'.slabs i).addr = (h.slabs i).addr ∧
      (h'.slabs i).freeCount = (h.slabs i).freeCount ∧ Listed slabMemory h' i objs ∧ objs.length = n ∧
      ∀ a, a ∈ objs ↔ ∃ k, k < n ∧ a = slabPage slabMemory i + BitVec.ofNat 32 k * cacheSizes i := by
  induction n with
  | zero =>
    refine ⟨h, [], rfl, .refl h, rfl, rfl, ⟨hnil, fun a ha => nomatch ha⟩, rfl, fun a => ?_⟩
    simp
  | succ n ih =>
    obtain ⟨h', objs, hfold, helse, haddr, hcount, hlist, hlen, hmem⟩ := ih (Nat.le_of_succ_le hn)
    have hobj : IsObject slabMemory i (slabPage slabMemory i + BitVec.ofNat 32 n * cacheSizes i) :=
      (isObject_iff hp).mpr ⟨n, hn, rfl⟩
    have hnew : slabPage slabMemory i + BitVec.ofNat 32 n * cacheSizes i ∉ objs := by
      rw [hmem]
      rintro ⟨k, hk, he⟩
      have := object_inj hp hn (by omega) he
      omega
    rw [List.range_succ, List.foldl_append, hfold]
    refine ⟨_, _, rfl, helse.trans (.link hobj), ?_, ?_, hlist.link hp hobj hnew, ?_, fun a => ?_⟩
    · simpa using haddr
    · simpa using hcount
    · rw [List.length_cons, hlen]
    · rw [List.mem_cons, hmem]
      constructor
      · rintro (rfl | ⟨k, hk, rfl⟩)
        · exact ⟨n, Nat.lt_succ_self n, rfl⟩
        · exact ⟨k, Nat.lt_succ_of_lt hk, rfl⟩
      · rintro ⟨k, hk, rfl⟩
        rcases Nat.lt_succ_iff_lt_or_eq.mp hk with hk | rfl
        · exact .inr ⟨k, hk, rfl⟩
        · exact .inl rfl

theorem createSlab_spec (hp : Placed slabMemory) (h : SlabHeap) (i : Fin 4) :
    Cache slabMemory (createSlab slabMemory h i) [] i ∧
      Elsewhere slabMemory i h (createSlab slabMemory h i) := by
  obtain ⟨-, -, -, hcount⟩ := classSize_facts i
  have hnil : ((h.setSlab i ⟨slabPage slabMemory i, cacheSizes i, 4096#32 / cacheSizes i, 0#32, 0#32⟩).slabs
      i).freeList = 0#32 := by rw [setSlab_same]
  obtain ⟨h', objs, hfold, helse, haddr, hfree, hlist, hlen, hmem⟩ :=
    createLoop_spec hp hnil (4096 / classSize i) (Nat.le_refl _)
  have hcreate : createSlab slabMemory h i = h' := by
    rw [← hfold, ← hcount]
    rfl
  rw [hcreate]
  refine ⟨⟨?_, objs, hlist, fun a ha => ?_, ?_⟩, (Elsewhere.setSlab h i _).trans helse⟩
  · rw [haddr, setSlab_same]
  · rw [hmem, ← isObject_iff hp]
    exact ⟨fun _ => List.not_mem_nil, fun _ => ha⟩
  · rw [hfree, setSlab_same, hlen]
    exact hcount

/-- Each page is cut up in turn, and the later ones leave the earlier ones alone. -/
theorem createAll_spec (hp : Placed slabMemory) (is : List (Fin 4)) (hnodup : is.Nodup) (h : SlabHeap)
    (done : List (Fin 4)) (hdone : ∀ i ∈ done, Cache slabMemory h [] i ∧ i ∉ is) :
    ∀ i ∈ done ++ is, Cache slabMemory (is.foldl (createSlab slabMemory) h) [] i := by
  induction is generalizing h done with
  | nil =>
    intro i hi
    rw [List.append_nil] at hi
    exact (hdone i hi).1
  | cons j is ih =>
    obtain ⟨hj, hrest⟩ := List.nodup_cons.mp hnodup
    obtain ⟨hmade, helse⟩ := createSlab_spec hp h j
    have hdone' : ∀ i ∈ done ++ [j], Cache slabMemory (createSlab slabMemory h j) [] i ∧ i ∉ is := by
      intro i hi
      rcases List.mem_append.mp hi with hi | hi
      · obtain ⟨hc, hnot⟩ := hdone i hi
        have hne : i ≠ j := fun e => hnot (e ▸ List.mem_cons_self)
        exact ⟨hc.elsewhere helse hne fun _ _ => Iff.rfl, fun hm => hnot (List.mem_cons_of_mem _ hm)⟩
      · rw [List.mem_singleton.mp hi]
        exact ⟨hmade, hj⟩
    have hall := ih hrest (createSlab slabMemory h j) (done ++ [j]) hdone'
    intro i hi
    apply hall
    rw [List.append_assoc]
    exact hi

theorem slabInit_spec (hp : Placed slabMemory) (h : SlabHeap) (i : Fin 4) :
    Cache slabMemory (slabInit slabMemory h) [] i := by
  have hall := createAll_spec hp (List.finRange 4) (List.nodup_finRange 4) h [] (fun _ hi => nomatch hi)
  unfold slabInit
  generalize (List.finRange 4).foldl (createSlab slabMemory) h = made at hall ⊢
  obtain ⟨haddr, objs, hlist, hmem, hcount⟩ := hall i (by simp)
  exact ⟨haddr, objs, ⟨hlist.links, hlist.objects⟩, hmem, hcount⟩

/-! ## Allocation and release -/

/-- The class is the smallest one that the size fits in. -/
def Serves (i : Fin 4) (size : Word) : Prop :=
  size.toNat ≤ classSize i ∧ ∀ j, size.toNat ≤ classSize j → classSize i ≤ classSize j

theorem classSize_mono : ∀ i j : Fin 4, classSize i ≤ classSize j ↔ i ≤ j := by decide

/-- A loop over the caches that stops at the first one. -/
theorem find?_finRange_eq_some {n : Nat} {p : Fin n → Bool} {i : Fin n} :
    (List.finRange n).find? p = some i ↔ p i = true ∧ ∀ j, j < i → p j = false := by
  rw [List.find?_eq_some_iff_getElem]
  constructor
  · rintro ⟨hi, k, hk, he, hbefore⟩
    refine ⟨hi, fun j hj => ?_⟩
    rw [List.getElem_finRange] at he
    have hjk : j.val < k := by
      rw [← he] at hj
      exact hj
    have hnot := hbefore j.val hjk
    rw [List.getElem_finRange] at hnot
    simpa using hnot
  · rintro ⟨hi, hbefore⟩
    refine ⟨hi, i.val, by simp, by simp, fun j hj => ?_⟩
    rw [List.getElem_finRange]
    simpa using hbefore ⟨j, by omega⟩ hj

theorem cacheIndex_eq_some {size : Word} : cacheIndex size = some i ↔ Serves i size := by
  rw [cacheIndex, find?_finRange_eq_some]
  simp only [decide_eq_true_eq, decide_eq_false_iff_not, BitVec.le_def]
  apply and_congr_right'
  constructor
  · intro hbefore j hj
    rw [classSize_mono]
    exact Fin.not_lt.mp fun hlt => hbefore j hlt hj
  · intro hleast j hlt hj
    have := (classSize_mono i j).mp (hleast j hj)
    exact absurd hlt (Fin.not_lt.mpr this)

theorem cacheIndex_eq_none {size : Word} : cacheIndex size = none ↔ 256 < size.toNat := by
  rw [cacheIndex, List.find?_eq_none]
  simp only [decide_eq_true_eq, BitVec.le_def]
  constructor
  · intro hall
    have hlast : ¬ size.toNat ≤ 256 := hall 3 (List.mem_finRange 3)
    omega
  · intro hbig i _ hle
    have hmax : (cacheSizes i).toNat ≤ 256 := (classSize_facts i).2.1
    omega

theorem Serves.eq {size : Word} (h : Serves i size) (h' : Serves j size) : i = j := by
  have hij := (classSize_mono i j).mp (h.2 j h'.1)
  have hji := (classSize_mono j i).mp (h'.2 i h.1)
  exact Fin.le_antisymm hij hji

/-- The outcomes of `kmalloc`. -/
theorem kmalloc_cases (hinit : h.slabInitialized = true) (size : Word) :
    (h.kmalloc size = (0#32, h) ∧ (size = 0#32 ∨ 256 < size.toNat ∨
        ∃ i, Serves i size ∧ (h.slabs i).freeList = 0#32)) ∨
      ∃ i, size ≠ 0#32 ∧ Serves i size ∧ (h.slabs i).freeList ≠ 0#32 ∧
        h.kmalloc size = ((h.slabs i).freeList, h.setSlab i { h.slabs i with
          freeList := h.nextObject (h.slabs i).freeList
          freeCount := if 0#32 < (h.slabs i).freeCount then (h.slabs i).freeCount - 1#32
            else (h.slabs i).freeCount }) := by
  unfold kmalloc
  by_cases hz : size = 0#32
  · left
    simp [hz]
  · rw [if_neg (by simp [hinit, hz])]
    cases hindex : cacheIndex size with
    | none => exact .inl ⟨rfl, .inr (.inl (cacheIndex_eq_none.mp hindex))⟩
    | some i =>
      have hserves := cacheIndex_eq_some.mp hindex
      by_cases hnil : (h.slabs i).freeList = 0#32
      · left
        simp only [hnil, if_true]
        exact ⟨trivial, .inr (.inr ⟨i, hserves, hnil⟩)⟩
      · right
        exact ⟨i, hz, hserves, hnil, if_neg hnil⟩

/-- The head of the list is handed out. -/
theorem Cache.pop (c : Cache slabMemory h out i) (hne : (h.slabs i).freeList ≠ 0#32) :
    IsObject slabMemory i (h.slabs i).freeList ∧ (h.slabs i).freeList ∉ out ∧
      Cache slabMemory (h.setSlab i { h.slabs i with
          freeList := h.nextObject (h.slabs i).freeList
          freeCount := if 0#32 < (h.slabs i).freeCount then (h.slabs i).freeCount - 1#32
            else (h.slabs i).freeCount })
        ((h.slabs i).freeList :: out) i := by
  obtain ⟨objs, hl, hmem, hcount⟩ := c.list
  obtain ⟨rest, rfl, hrest⟩ := hl.links.pop hne
  obtain ⟨hnot, hnodup⟩ := List.nodup_cons.mp hl.links.nodup
  have hobj := hl.objects _ List.mem_cons_self
  refine ⟨hobj, (hmem _ hobj).mp List.mem_cons_self, ⟨?_, rest, ⟨?_, fun a ha => ?_⟩, fun a ha => ?_, ?_⟩⟩
  · rw [setSlab_same]
    exact c.addr
  · rw [setSlab_same]
    exact hrest
  · exact hl.objects a (List.mem_cons_of_mem _ ha)
  · have hold := hmem a ha
    rw [List.mem_cons] at hold ⊢
    constructor
    · intro hin
      rintro (he | hout)
      · exact hnot (he ▸ hin)
      · exact hold.mp (.inr hin) hout
    · intro hout
      rcases hold.mpr fun hm => hout (.inr hm) with he | hin
      · exact absurd (.inl he) hout
      · exact hin
  · rw [List.length_cons] at hcount
    have hpos : 0#32 < (h.slabs i).freeCount := by
      rw [BitVec.lt_def, hcount]
      simp
    rw [setSlab_same]
    simp only [if_pos hpos]
    rw [BitVec.toNat_sub_of_le (by rw [BitVec.le_def, hcount]; simp), hcount]
    simp

/-- The address decides the cache. -/
theorem kfree_eq (hp : Placed slabMemory) (hinit : h.slabInitialized = true)
    (haddr : ∀ j, (h.slabs j).addr = slabPage slabMemory j) (ha : IsObject slabMemory i a) :
    h.kfree a = (h.link i a).setSlab i { (h.link i a).slabs i with
      freeCount := ((h.link i a).slabs i).freeCount + 1#32 } := by
  have hrange (j : Fin 4) : ((h.slabs j).addr ≤ a && a < (h.slabs j).addr + 4096#32) =
      decide (slabMemory.toNat + j.val * 4096 ≤ a.toNat ∧
        a.toNat < slabMemory.toNat + j.val * 4096 + 4096) := by
    have hend : (slabPage slabMemory j + 4096#32).toNat = slabMemory.toNat + j.val * 4096 + 4096 := by
      have hj := j.isLt
      have hfits := hp.fits
      rw [BitVec.toNat_add, slabPage_toNat hp, BitVec.toNat_ofNat]
      omega
    rw [haddr j, Bool.eq_iff_iff]
    simp only [Bool.and_eq_true, decide_eq_true_eq, BitVec.le_def, BitVec.lt_def, hend, slabPage_toNat hp]
  have hin := ha.inside
  have hsize := (classSize_facts i).1
  have hfind : (List.finRange 4).find? (fun j =>
      (h.slabs j).addr ≤ a && a < (h.slabs j).addr + 4096#32) = some i := by
    rw [find?_finRange_eq_some]
    refine ⟨?_, fun j hj => ?_⟩
    · rw [hrange, decide_eq_true_eq]
      omega
    · have hlt : j.val < i.val := hj
      rw [hrange, decide_eq_false_iff_not]
      omega
  unfold kfree
  rw [if_neg (by simp [hinit, ha.ne_zero hp]), hfind]

/-- An object that was handed out goes to the head of the list. -/
theorem Cache.push (hp : Placed slabMemory) (c : Cache slabMemory h out i) (ha : IsObject slabMemory i a)
    (hout : a ∈ out) (hrest : ∀ b, b ∈ out' ↔ b ∈ out ∧ b ≠ a) :
    Cache slabMemory ((h.link i a).setSlab i { (h.link i a).slabs i with
      freeCount := ((h.link i a).slabs i).freeCount + 1#32 }) out' i := by
  obtain ⟨objs, hl, hmem, hcount⟩ := c.list
  have hnew : a ∉ objs := fun hm => (hmem a ha).mp hm hout
  have hl' := hl.link hp ha hnew
  have hfew : objs.length ≤ 4096 := by
    have hsub : (objs.map BitVec.toNat).Subperm (List.range' (slabMemory.toNat + i.val * 4096) 4096) := by
      apply List.subperm_of_subset
      · exact List.Nodup.map (fun _ _ => BitVec.eq_of_toNat_eq) hl.links.nodup
      · intro x hx
        obtain ⟨b, hb, rfl⟩ := List.mem_map.mp hx
        have hin := (hl.objects b hb).inside
        have hsize := (classSize_facts i).1
        rw [List.mem_range'_1]
        omega
    have hle := hsub.length_le
    rwa [List.length_map, List.length_range'] at hle
  refine ⟨?_, a :: objs, ⟨?_, hl'.objects⟩, fun b hb => ?_, ?_⟩
  · rw [setSlab_same, link_same]
    exact c.addr
  · have hlinks := hl'.links
    rw [link_same] at hlinks
    rw [setSlab_same, link_same]
    exact hlinks
  · rw [List.mem_cons, hmem b hb, hrest]
    constructor
    · rintro (rfl | hnot) ⟨hin, hne⟩
      · exact hne rfl
      · exact hnot hin
    · intro hnot
      by_cases he : b = a
      · exact .inl he
      · exact .inr fun hin => hnot ⟨hin, he⟩
  · rw [setSlab_same, link_same, List.length_cons, ← hcount, BitVec.toNat_add, BitVec.toNat_ofNat]
    dsimp only
    omega

end SlabHeap

/-! ## Runs of the callers -/

/-- The heap beside the objects that are out, each with the size that was asked for. -/
structure SlabRun where
  heap : SlabHeap
  out : List (Word × Word)

inductive SlabCall
  | kmalloc (size : Word)
  | kfree (ptr : Word)
  /-- A caller writes one byte. -/
  | store (address : Word) (value : Byte)

namespace SlabRun

open SlabHeap

def next (s : SlabRun) : SlabCall → SlabRun
  | .kmalloc size =>
    let (ptr, heap) := s.heap.kmalloc size
    ⟨heap, if ptr = 0#32 then s.out else (ptr, size) :: s.out⟩
  | .kfree ptr => ⟨s.heap.kfree ptr, s.out.filter fun o => o.1 != ptr⟩
  | .store address value => ⟨{ s.heap with mem := s.heap.mem.set address.toNat value }, s.out⟩

/-- A pointer that is freed is out, and a write stays in an object that is. -/
def Owned (s : SlabRun) : SlabCall → Prop
  | .kmalloc _ => True
  | .kfree ptr => ptr ∈ s.out.map Prod.fst
  | .store address _ => ∃ o ∈ s.out, o.1.toNat ≤ address.toNat ∧ address.toNat < o.1.toNat + o.2.toNat

def calls : Machine SlabRun SlabCall := ⟨Owned, next⟩

/-- `slab_init` in a memory of any content. -/
def boot (slabMemory : Word) (h : SlabHeap) : SlabRun := ⟨slabInit slabMemory h, []⟩

structure Inv (slabMemory : Word) (s : SlabRun) : Prop where
  initialized : s.heap.slabInitialized = true
  caches : ∀ i, Cache slabMemory s.heap (s.out.map Prod.fst) i
  objects : ∀ o ∈ s.out, ∃ i, Serves i o.2 ∧ IsObject slabMemory i o.1
  nodup : (s.out.map Prod.fst).Nodup

variable {slabMemory : Word} {s : SlabRun}

theorem Inv.start (hp : Placed slabMemory) (h : SlabHeap) : Inv slabMemory (boot slabMemory h) where
  initialized := rfl
  caches := slabInit_spec hp h
  objects := fun _ ho => nomatch ho
  nodup := List.nodup_nil

theorem Inv.kmalloc (inv : Inv slabMemory s) (size : Word) :
    Inv slabMemory (s.next (.kmalloc size)) := by
  rcases kmalloc_cases inv.initialized size with ⟨he, -⟩ | ⟨i, -, hserves, hne, he⟩
  · have hs : s.next (.kmalloc size) = s := by simp [next, he]
    rw [hs]
    exact inv
  · obtain ⟨hobj, hnot, hcache⟩ := (inv.caches i).pop hne
    simp only [next, he, hne, if_false]
    refine ⟨inv.initialized, fun j => ?_, fun o ho => ?_, List.nodup_cons.mpr ⟨hnot, inv.nodup⟩⟩
    · by_cases hij : j = i
      · subst hij
        exact hcache
      · apply (inv.caches j).elsewhere (.setSlab s.heap i _) hij
        intro a ha
        have hother : a ≠ (s.heap.slabs i).freeList := by
          rintro rfl
          exact hij (ha.cache_eq hobj)
        rw [List.map_cons, List.mem_cons]
        exact or_iff_right hother
    · rcases List.mem_cons.mp ho with rfl | ho
      · exact ⟨i, hserves, hobj⟩
      · exact inv.objects o ho

theorem mem_out_filter (ptr b : Word) :
    b ∈ (s.out.filter fun o => o.1 != ptr).map Prod.fst ↔ b ∈ s.out.map Prod.fst ∧ b ≠ ptr := by
  simp only [List.mem_map, List.mem_filter, bne_iff_ne]
  constructor
  · rintro ⟨o, ⟨ho, hne⟩, rfl⟩
    exact ⟨⟨o, ho, rfl⟩, hne⟩
  · rintro ⟨⟨o, ho, rfl⟩, hne⟩
    exact ⟨o, ⟨ho, hne⟩, rfl⟩

theorem Inv.kfree (hp : Placed slabMemory) (inv : Inv slabMemory s) {ptr : Word}
    (hmem : ptr ∈ s.out.map Prod.fst) : Inv slabMemory (s.next (.kfree ptr)) := by
  obtain ⟨o, ho, rfl⟩ := List.mem_map.mp hmem
  obtain ⟨i, -, hobj⟩ := inv.objects o ho
  simp only [next, kfree_eq hp inv.initialized (fun j => (inv.caches j).addr) hobj]
  refine ⟨inv.initialized, fun j => ?_, fun p hpm => ?_, ?_⟩
  · by_cases hij : j = i
    · subst hij
      exact (inv.caches j).push hp hobj hmem (mem_out_filter o.1)
    · apply (inv.caches j).elsewhere ((Elsewhere.link hobj).trans (.setSlab _ i _)) hij
      intro a ha
      have hother : a ≠ o.1 := by
        rintro rfl
        exact hij (ha.cache_eq hobj)
      rw [mem_out_filter]
      exact and_iff_left hother
  · exact inv.objects p (List.mem_filter.mp hpm).1
  · exact inv.nodup.sublist (List.filter_sublist.map _)

/-- A write inside an object that is out misses every link. -/
theorem Inv.store (inv : Inv slabMemory s) {address : Word} {o : Word × Word} (ho : o ∈ s.out)
    (hlo : o.1.toNat ≤ address.toNat) (hhi : address.toNat < o.1.toNat + o.2.toNat) (value : Byte) :
    Inv slabMemory (s.next (.store address value)) := by
  obtain ⟨i, hserves, hobj⟩ := inv.objects o ho
  refine ⟨inv.initialized, fun j => ?_, inv.objects, inv.nodup⟩
  obtain ⟨objs, hl, hmem, hcount⟩ := (inv.caches j).list
  refine ⟨(inv.caches j).addr, objs, ⟨?_, hl.objects⟩, hmem, hcount⟩
  apply hl.links.congr
  intro a ha
  have hfree := hl.objects a ha
  have hne : a ≠ o.1 := by
    rintro rfl
    exact (hmem _ hfree).mp ha (List.mem_map_of_mem ho)
  apply Buf.word_set_ne
  have hsize := (classSize_facts j).1
  have hfit := hserves.1
  by_contra hover
  apply hfree.apart hobj hne address.toNat
  · unfold Extent.Has
    dsimp only
    omega
  · unfold Extent.Has
    dsimp only
    omega

theorem Inv.next (hp : Placed slabMemory) (inv : Inv slabMemory s) (c : SlabCall) (hc : s.Owned c) :
    Inv slabMemory (s.next c) := by
  cases c with
  | kmalloc size => exact inv.kmalloc size
  | kfree ptr => exact inv.kfree hp hc
  | store address value =>
    obtain ⟨o, ho, hlo, hhi⟩ := hc
    exact inv.store ho hlo hhi value

/-- What callers can rely on. -/
structure Integrity (slabMemory : Word) (s : SlabRun) : Prop where
  /-- Objects are apart, up to the size of their class. -/
  apart : s.out.Pairwise fun o p => ∀ i j, Serves i o.2 → Serves j p.2 →
    Extent.Apart ⟨o.1.toNat, classSize i⟩ ⟨p.1.toNat, classSize j⟩
  placed : ∀ o ∈ s.out, ∃ i, Serves i o.2 ∧ (slabPage slabMemory i).toNat ≤ o.1.toNat ∧
    o.1.toNat + classSize i ≤ (slabPage slabMemory i).toNat + 4096 ∧ classSize i ∣ o.1.toNat
  /-- A list that ends and has the free objects of the page, each once. -/
  lists : ∀ i, ∃ objs, Links s.heap.nextObject 0#32 (s.heap.slabs i).freeList objs ∧ objs.Nodup ∧
    (∀ a, a ∈ objs ↔ IsObject slabMemory i a ∧ a ∉ s.out.map Prod.fst) ∧
    objs.length = (s.heap.slabs i).freeCount.toNat
  null : ∀ size, (s.heap.kmalloc size).1 = 0#32 ↔ size = 0#32 ∨ 256 < size.toNat ∨
    ∃ i, Serves i size ∧ ∀ a, IsObject slabMemory i a → a ∈ s.out.map Prod.fst

theorem Inv.lists (inv : Inv slabMemory s) (i : Fin 4) :
    ∃ objs, Links s.heap.nextObject 0#32 (s.heap.slabs i).freeList objs ∧ objs.Nodup ∧
      (∀ a, a ∈ objs ↔ IsObject slabMemory i a ∧ a ∉ s.out.map Prod.fst) ∧
      objs.length = (s.heap.slabs i).freeCount.toNat := by
  obtain ⟨objs, hl, hmem, hcount⟩ := (inv.caches i).list
  refine ⟨objs, hl.links, hl.links.nodup, fun a => ⟨fun ha => ?_, fun ha => ?_⟩, hcount.symm⟩
  · exact ⟨hl.objects a ha, (hmem a (hl.objects a ha)).mp ha⟩
  · exact (hmem a ha.1).mpr ha.2

/-- A cache has an empty list exactly when all its objects are out. -/
theorem Inv.freeList_nil (inv : Inv slabMemory s) (i : Fin 4) :
    (s.heap.slabs i).freeList = 0#32 ↔ ∀ a, IsObject slabMemory i a → a ∈ s.out.map Prod.fst := by
  obtain ⟨objs, hlinks, -, hmem, -⟩ := inv.lists i
  constructor
  · intro hnil a ha
    rw [hnil] at hlinks
    by_contra hout
    have hfree := (hmem a).mpr ⟨ha, hout⟩
    rw [hlinks.eq_nil] at hfree
    exact nomatch hfree
  · intro hall
    by_contra hne
    obtain ⟨rest, rfl, -⟩ := hlinks.pop hne
    obtain ⟨hobj, hout⟩ := (hmem _).mp List.mem_cons_self
    exact hout (hall _ hobj)

theorem Inv.null (inv : Inv slabMemory s) (size : Word) :
    (s.heap.kmalloc size).1 = 0#32 ↔ size = 0#32 ∨ 256 < size.toNat ∨
      ∃ i, Serves i size ∧ ∀ a, IsObject slabMemory i a → a ∈ s.out.map Prod.fst := by
  simp only [← inv.freeList_nil]
  rcases kmalloc_cases inv.initialized size with ⟨he, why⟩ | ⟨i, hz, hserves, hne, he⟩
  · rw [he]
    exact ⟨fun _ => why, fun _ => rfl⟩
  · rw [he]
    refine ⟨fun hnil => absurd hnil hne, ?_⟩
    rintro (hzero | hbig | ⟨j, hserves', hnil⟩)
    · exact absurd hzero hz
    · have hle := hserves.1
      have hmax := (classSize_facts i).2.1
      omega
    · rw [hserves'.eq hserves] at hnil
      exact absurd hnil hne

theorem Inv.integrity (hp : Placed slabMemory) (inv : Inv slabMemory s) : Integrity slabMemory s where
  apart := by
    have hne : s.out.Pairwise fun o p => o.1 ≠ p.1 := List.pairwise_map.mp inv.nodup
    apply hne.imp_of_mem
    intro o p ho hpm hop i j hi hj
    obtain ⟨i', hi', hobj⟩ := inv.objects o ho
    obtain ⟨j', hj', hobj'⟩ := inv.objects p hpm
    rw [hi.eq hi', hj.eq hj']
    exact hobj.apart hobj' hop
  placed := by
    intro o ho
    obtain ⟨i, hserves, hobj⟩ := inv.objects o ho
    refine ⟨i, hserves, ?_⟩
    rw [slabPage_toNat hp]
    exact ⟨hobj.inside.1, hobj.inside.2, hobj.dvd hp⟩
  lists := inv.lists
  null := inv.null

/-- After `slab_init`, whatever the callers allocate, free and write. -/
theorem reach_integrity (hp : Placed slabMemory) {h : SlabHeap}
    (hr : calls.Reach (fun _ _ => True) (boot slabMemory h) s) : Integrity slabMemory s := by
  have inv : Inv slabMemory s := by
    apply hr.invariant (I := Inv slabMemory)
    · exact Inv.start hp h
    · intro s c hs hc _
      exact hs.next hp c hc
  exact inv.integrity hp

/-- The tables and the memory before `slab_init`. -/
def cleared : SlabHeap := ⟨Buf.zero, fun _ => ⟨0#32, 0#32, 0#32, 0#32, 0#32⟩, false⟩

theorem reach_next {s₀ : SlabRun} (h : calls.Reach (fun _ _ => True) s₀ s) {c : SlabCall} (hc : s.Owned c) :
    calls.Reach (fun _ _ => True) s₀ (s.next c) := .step c h hc trivial

/-- Twenty bytes are allocated and the first of them is written. -/
theorem twenty_bytes :
    ∃ s, calls.Reach (fun _ _ => True) (boot 0x00020000#32 cleared) s ∧
      s.out = [(0x00020fe0#32, 20#32)] ∧ Integrity 0x00020000#32 s := by
  have hp : Placed 0x00020000#32 := ⟨by decide, by decide, by decide⟩
  have hout : ((boot 0x00020000#32 cleared).next (.kmalloc 20#32)).out = [(0x00020fe0#32, 20#32)] := by
    decide +kernel
  generalize hstart : boot 0x00020000#32 cleared = start at hout ⊢
  have halloc := reach_next (s := start) .start (c := .kmalloc 20#32) trivial
  have howned : (start.next (.kmalloc 20#32)).Owned (.store 0x00020fe0#32 0xff#8) := by
    refine ⟨(0x00020fe0#32, 20#32), ?_, by decide, by decide⟩
    rw [hout]
    exact List.mem_cons_self
  have hstore := reach_next halloc howned
  refine ⟨_, hstore, hout, ?_⟩
  rw [← hstart] at hstore ⊢
  exact reach_integrity hp hstore

end SlabRun

end SengOS
