import Mathlib.Data.Finset.Card
import Mathlib.Tactic.Common

/-!
# Directory trees

Objects named by the entries of directories. Entries 0 and 1 of a directory
are the links to itself and to its parent; every other object is named by
exactly one of the remaining entries and can be reached from the root. Adding
a leaf and removing a leaf keep this.
-/

namespace SengOS

variable {ι ν : Type}

section
variable (root : ι) (n : Nat) (dir : ι → Prop) (entry : ι → Nat → Option (ν × ι))

/-- Objects on a path of ordinary entries from the root. -/
inductive DirReach : ι → Prop
  | root : DirReach root
  | entry {d i : ι} {s : Nat} {x : ν} : DirReach d → dir d → 2 ≤ s → s < n →
      entry d s = some (x, i) → DirReach i

/-- The names of the entries on such a path, from the root down. -/
inductive DirTrail : ι → List ν → Prop
  | root : DirTrail root []
  | entry {d i : ι} {s : Nat} {x : ν} {xs : List ν} : DirTrail d xs → dir d → 2 ≤ s → s < n →
      entry d s = some (x, i) → DirTrail i (xs ++ [x])

structure DirTree (dot dotdot : ν) (live : ι → Prop) : Prop where
  dir_live : ∀ d, dir d → live d
  root_dir : dir root
  self : ∀ d, dir d → entry d 0 = some (dot, d)
  parent : ∀ d, dir d → ∃ p, entry d 1 = some (dotdot, p) ∧ dir p ∧
    ((d = root ∧ p = root) ∨ ∃ s x, 2 ≤ s ∧ s < n ∧ entry p s = some (x, d))
  child : ∀ d s x i, dir d → 2 ≤ s → s < n → entry d s = some (x, i) →
    live i ∧ i ≠ root ∧ x ≠ dot ∧ x ≠ dotdot
  names : ∀ d s t x i j, dir d → s < n → t < n → entry d s = some (x, i) →
    entry d t = some (x, j) → s = t
  once : ∀ d e s t x y i, dir d → dir e → 2 ≤ s → s < n → 2 ≤ t → t < n →
    entry d s = some (x, i) → entry e t = some (y, i) → d = e ∧ s = t
  reach : ∀ i, live i → DirReach root n dir entry i

end

namespace DirTree

variable {root : ι} {n : Nat} {dir dir' : ι → Prop} {entry entry' : ι → Nat → Option (ν × ι)}
  {dot dotdot : ν} {live live' : ι → Prop}

/-- Paths survive where every ordinary entry does. -/
theorem reach_mono (hd : ∀ i, dir i → dir' i)
    (keep : ∀ d s x i, dir d → 2 ≤ s → s < n → entry d s = some (x, i) → entry' d s = some (x, i))
    {i : ι} (hi : DirReach root n dir entry i) : DirReach root n dir' entry' i := by
  induction hi with
  | root => exact .root
  | entry _ hdd h2 hn he ih => exact .entry ih (hd _ hdd) h2 hn (keep _ _ _ _ hdd h2 hn he)

/-- Every entry names a live object. -/
theorem entry_live (h : DirTree root n dir entry dot dotdot live) {d i : ι} {s : Nat} {x : ν}
    (hd : dir d) (hs : s < n) (he : entry d s = some (x, i)) : live i := by
  rcases Nat.lt_or_ge s 2 with h2 | h2
  · obtain rfl | rfl : s = 0 ∨ s = 1 := by omega
    · rw [h.self d hd] at he
      cases he
      exact h.dir_live d hd
    · obtain ⟨p, hp, hpd, _⟩ := h.parent d hd
      rw [hp] at he
      cases he
      exact h.dir_live _ hpd
  · exact (h.child d s x i hd h2 hs he).1

theorem named (h : DirTree root n dir entry dot dotdot live) {i : ι} (hl : live i) (hr : i ≠ root) :
    ∃ d s x, dir d ∧ 2 ≤ s ∧ s < n ∧ entry d s = some (x, i) := by
  cases h.reach i hl with
  | root => exact absurd rfl hr
  | entry _ hd h2 hn he => exact ⟨_, _, _, hd, h2, hn, he⟩

/-! ## Trails -/

theorem trail (h : DirTree root n dir entry dot dotdot live) {i : ι} (hl : live i) :
    ∃ xs, DirTrail root n dir entry i xs := by
  induction h.reach i hl with
  | root => exact ⟨[], .root⟩
  | entry _ hd h2 hn he ih =>
    obtain ⟨xs, hx⟩ := ih (h.dir_live _ hd)
    exact ⟨_, hx.entry hd h2 hn he⟩

/-- The last step of a trail is the parent link. -/
theorem parent_of_entry (h : DirTree root n dir entry dot dotdot live) {d i : ι} {s : Nat} {x : ν}
    (hi : dir i) (hd : dir d) (h2 : 2 ≤ s) (hn : s < n) (he : entry d s = some (x, i)) :
    entry i 1 = some (dotdot, d) := by
  obtain ⟨p, hp, hpd, hor⟩ := h.parent i hi
  rcases hor with ⟨rfl, -⟩ | ⟨t, y, ht2, ht, hy⟩
  · exact absurd rfl (h.child d s x i hd h2 hn he).2.1
  · rw [hp, (h.once d p s t x y i hd hpd h2 hn ht2 ht he hy).1]

theorem trail_unique (h : DirTree root n dir entry dot dotdot live) {i : ι} {xs ys : List ν}
    (hx : DirTrail root n dir entry i xs) (hy : DirTrail root n dir entry i ys) : xs = ys := by
  induction hx generalizing ys with
  | root =>
    cases hy with
    | root => rfl
    | entry _ hd h2 hn he => exact absurd rfl (h.child _ _ _ _ hd h2 hn he).2.1
  | entry _ hd h2 hn he ih =>
    cases hy with
    | root => exact absurd rfl (h.child _ _ _ _ hd h2 hn he).2.1
    | entry hy hd' h2' hn' he' =>
      obtain ⟨rfl, rfl⟩ := h.once _ _ _ _ _ _ _ hd hd' h2 hn h2' hn' he he'
      rw [he] at he'
      cases he'
      rw [ih hy]

theorem trail_live (h : DirTree root n dir entry dot dotdot live) {i : ι} {xs : List ν}
    (hx : DirTrail root n dir entry i xs) : live i := by
  cases hx with
  | root => exact h.dir_live _ h.root_dir
  | entry _ hd h2 hn he => exact (h.child _ _ _ _ hd h2 hn he).1

/-- There is an object at every level above the end of a trail. -/
theorem trail_level {i : ι} {xs : List ν} (hx : DirTrail root n dir entry i xs) {k : Nat}
    (hk : k ≤ xs.length) : ∃ j ys, DirTrail root n dir entry j ys ∧ ys.length = k := by
  induction hx with
  | root => exact ⟨root, [], .root, (Nat.le_zero.mp hk).symm⟩
  | @entry d i s x xs hx hd h2 hn he ih =>
    rcases Nat.lt_or_ge xs.length k with hlt | hle
    · have hlen : (xs ++ [x]).length = k := by
        rw [List.length_append, List.length_singleton] at hk ⊢
        omega
      exact ⟨i, xs ++ [x], hx.entry hd h2 hn he, hlen⟩
    · exact ih hle

/-- Different levels hold different objects, so a trail is shorter than the
number of objects. -/
theorem trail_length (h : DirTree root n dir entry dot dotdot live) (pool : Finset ι)
    (hp : ∀ i, live i → i ∈ pool) {i : ι} {xs : List ν} (hx : DirTrail root n dir entry i xs) :
    xs.length < pool.card := by
  have level : ∀ k, ∃ j, k ≤ xs.length → ∃ ys, DirTrail root n dir entry j ys ∧ ys.length = k := by
    intro k
    by_cases hk : k ≤ xs.length
    · obtain ⟨j, ys, hj, hlen⟩ := trail_level hx hk
      exact ⟨j, fun _ => ⟨ys, hj, hlen⟩⟩
    · exact ⟨i, fun hk' => absurd hk' hk⟩
  choose node hnode using level
  have hcard : (Finset.range (xs.length + 1)).card ≤ pool.card := by
    apply Finset.card_le_card_of_injOn node
    · intro k hk
      have hk := Finset.mem_range.mp hk
      obtain ⟨ys, hy, -⟩ := hnode k (by omega)
      exact hp _ (h.trail_live hy)
    · intro k hk m hm e
      have hk := Finset.mem_range.mp hk
      have hm := Finset.mem_range.mp hm
      obtain ⟨ys, hy, hlen⟩ := hnode k (by omega)
      obtain ⟨zs, hz, hlen'⟩ := hnode m (by omega)
      rw [e] at hy
      rw [← hlen, ← hlen', h.trail_unique hy hz]
  rw [Finset.card_range] at hcard
  omega

theorem congr (h : DirTree root n dir entry dot dotdot live) (hn : 2 ≤ n)
    (hl : ∀ i, live' i ↔ live i) (hd : ∀ i, dir' i ↔ dir i)
    (he : ∀ d s, dir d → s < n → entry' d s = entry d s) :
    DirTree root n dir' entry' dot dotdot live' := by
  have keep : ∀ d s x i, dir d → 2 ≤ s → s < n → entry d s = some (x, i) →
      entry' d s = some (x, i) := by
    intro d s x i hdd _ hs hx
    rw [he d s hdd hs, hx]
  constructor
  · intro d h'
    exact (hl d).mpr (h.dir_live d ((hd d).mp h'))
  · exact (hd root).mpr h.root_dir
  · intro d h'
    rw [he d 0 ((hd d).mp h') (by omega)]
    exact h.self d ((hd d).mp h')
  · intro d h'
    obtain ⟨p, hp, hpd, hor⟩ := h.parent d ((hd d).mp h')
    refine ⟨p, ?_, (hd p).mpr hpd, ?_⟩
    · rw [he d 1 ((hd d).mp h') (by omega), hp]
    · rcases hor with hr | ⟨s, x, h2, hs, hx⟩
      · exact Or.inl hr
      · exact Or.inr ⟨s, x, h2, hs, by rw [he p s hpd hs, hx]⟩
  · intro d s x i h' h2 hs hx
    rw [he d s ((hd d).mp h') hs] at hx
    obtain ⟨h1, h3⟩ := h.child d s x i ((hd d).mp h') h2 hs hx
    exact ⟨(hl i).mpr h1, h3⟩
  · intro d s t x i j h' hs ht hx hy
    rw [he d s ((hd d).mp h') hs] at hx
    rw [he d t ((hd d).mp h') ht] at hy
    exact h.names d s t x i j ((hd d).mp h') hs ht hx hy
  · intro d e s t x y i h' h'' h2 hs h3 ht hx hy
    rw [he d s ((hd d).mp h') hs] at hx
    rw [he e t ((hd e).mp h'') ht] at hy
    exact h.once d e s t x y i ((hd d).mp h') ((hd e).mp h'') h2 hs h3 ht hx hy
  · intro i hi
    exact reach_mono (fun i => (hd i).mpr) keep (h.reach i ((hl i).mp hi))

/-- Besides its two links a leaf has no names. -/
theorem leaf_names {f : Nat → Option (ν × ι)} {d p : ι} (hdd : dot ≠ dotdot)
    (leaf : f 0 = some (dot, d) ∧ f 1 = some (dotdot, p) ∧ ∀ s, 2 ≤ s → s < n → f s = none)
    {s t : Nat} {x : ν} {i j : ι} (hs : s < n) (ht : t < n) (hx : f s = some (x, i))
    (hy : f t = some (x, j)) : s = t := by
  obtain ⟨hself, hparent, hrest⟩ := leaf
  have only {s : Nat} {i : ι} (hs : s < n) (hx : f s = some (x, i)) :
      (s = 0 ∧ x = dot) ∨ (s = 1 ∧ x = dotdot) := by
    rcases Nat.lt_or_ge s 2 with hlt | hge
    · obtain rfl | rfl : s = 0 ∨ s = 1 := by omega
      · rw [hself] at hx
        cases hx
        exact Or.inl ⟨rfl, rfl⟩
      · rw [hparent] at hx
        cases hx
        exact Or.inr ⟨rfl, rfl⟩
    · rw [hrest s hge hs] at hx
      cases hx
  rcases only hs hx with ⟨rfl, rfl⟩ | ⟨rfl, rfl⟩
  · rcases only ht hy with ⟨rfl, _⟩ | ⟨rfl, e⟩
    · rfl
    · exact absurd e hdd
  · rcases only ht hy with ⟨rfl, e⟩ | ⟨rfl, _⟩
    · exact absurd e.symm hdd
    · rfl

/-- The names of a directory stay apart when a new one enters. -/
theorem names_added {f f' : Nat → Option (ν × ι)} {i₀ : ι} {s₀ : Nat} {x₀ : ν}
    (names : ∀ s t x i j, s < n → t < n → f s = some (x, i) → f t = some (x, j) → s = t)
    (newName : ∀ s i, s < n → f s ≠ some (x₀, i)) (added : f' s₀ = some (x₀, i₀))
    (same : ∀ s, s < n → s ≠ s₀ → f' s = f s) {s t : Nat} {x : ν} {i j : ι} (hs : s < n) (ht : t < n)
    (hx : f' s = some (x, i)) (hy : f' t = some (x, j)) : s = t := by
  have new {t : Nat} {x : ν} {i j : ι} (ht : t < n) (hx : f' s₀ = some (x, i))
      (hy : f' t = some (x, j)) : s₀ = t := by
    by_contra hne
    rw [added] at hx
    cases hx
    rw [same t ht (Ne.symm hne)] at hy
    exact newName t j ht hy
  by_cases hs₀ : s = s₀
  · rw [hs₀] at hx ⊢
    exact new ht hx hy
  · by_cases ht₀ : t = s₀
    · rw [ht₀] at hy ⊢
      exact (new hs hy hx).symm
    · rw [same s hs hs₀] at hx
      rw [same t ht ht₀] at hy
      exact names s t x i j hs ht hx hy

/-- A new object enters under a new name in a free entry; if it is a
directory it holds the two links and nothing else. -/
theorem addLeaf (h : DirTree root n dir entry dot dotdot live) {i₀ p : ι} {s₀ : Nat} {x₀ : ν}
    (hi₀ : ¬ live i₀) (hp : dir p) (h2 : 2 ≤ s₀) (hs₀ : s₀ < n)
    (free : entry p s₀ = none) (hdot : x₀ ≠ dot) (hdotdot : x₀ ≠ dotdot) (hdd : dot ≠ dotdot)
    (newName : ∀ s i, s < n → entry p s ≠ some (x₀, i))
    (hl : ∀ i, live' i ↔ live i ∨ i = i₀) (hd : ∀ i, dir i → dir' i)
    (hd' : ∀ i, dir' i → dir i ∨ i = i₀)
    (added : entry' p s₀ = some (x₀, i₀))
    (same : ∀ d s, dir d → s < n → (d = p → s ≠ s₀) → entry' d s = entry d s)
    (leaf : dir' i₀ → entry' i₀ 0 = some (dot, i₀) ∧ entry' i₀ 1 = some (dotdot, p) ∧
      ∀ s, 2 ≤ s → s < n → entry' i₀ s = none) :
    DirTree root n dir' entry' dot dotdot live' := by
  have hroot : root ≠ i₀ := fun e => hi₀ (e ▸ h.dir_live root h.root_dir)
  have link (d : ι) (s : Nat) (hdd : dir d) (hs : s < 2) : entry' d s = entry d s :=
    same d s hdd (by omega) (fun _ => by omega)
  -- an ordinary entry is the new one or an old one
  have ordinary (d : ι) (s : Nat) (x : ν) (i : ι) (h' : dir' d) (hs2 : 2 ≤ s) (hs : s < n)
      (hx : entry' d s = some (x, i)) :
      (d = p ∧ s = s₀ ∧ x = x₀ ∧ i = i₀) ∨ (dir d ∧ entry d s = some (x, i) ∧ (d = p → s ≠ s₀)) := by
    rcases hd' d h' with hold | rfl
    · by_cases hps : d = p ∧ s = s₀
      · obtain ⟨rfl, rfl⟩ := hps
        rw [added] at hx
        cases hx
        exact Or.inl ⟨rfl, rfl, rfl, rfl⟩
      · have hne : d = p → s ≠ s₀ := fun e e' => hps ⟨e, e'⟩
        rw [same d s hold hs hne] at hx
        exact Or.inr ⟨hold, hx, hne⟩
    · rw [(leaf h').2.2 s hs2 hs] at hx
      cases hx
  have keep (d : ι) (s : Nat) (x : ν) (i : ι) (hdd : dir d) (hs : s < n)
      (hx : entry d s = some (x, i)) : entry' d s = some (x, i) := by
    rw [same d s hdd hs, hx]
    rintro rfl rfl
    rw [free] at hx
    cases hx
  have lift {i : ι} (hi : DirReach root n dir entry i) : DirReach root n dir' entry' i :=
    reach_mono hd (fun d s x i hdd _ hs hx => keep d s x i hdd hs hx) hi
  constructor
  · intro d h'
    exact (hl d).mpr ((hd' d h').imp (h.dir_live d) id)
  · exact hd root h.root_dir
  · intro d h'
    rcases hd' d h' with hold | rfl
    · rw [link d 0 hold (by omega), h.self d hold]
    · exact (leaf h').1
  · intro d h'
    rcases hd' d h' with hold | rfl
    · obtain ⟨q, hq, hqd, hor⟩ := h.parent d hold
      refine ⟨q, by rw [link d 1 hold (by omega), hq], hd q hqd, ?_⟩
      rcases hor with hr | ⟨s, x, hs2, hs, hx⟩
      · exact Or.inl hr
      · exact Or.inr ⟨s, x, hs2, hs, keep q s x d hqd hs hx⟩
    · exact ⟨p, (leaf h').2.1, hd p hp, Or.inr ⟨s₀, x₀, h2, hs₀, added⟩⟩
  · intro d s x i h' hs2 hs hx
    rcases ordinary d s x i h' hs2 hs hx with ⟨rfl, rfl, rfl, rfl⟩ | ⟨hold, hx, -⟩
    · exact ⟨(hl i).mpr (Or.inr rfl), hroot.symm, hdot, hdotdot⟩
    · obtain ⟨h1, h3⟩ := h.child d s x i hold hs2 hs hx
      exact ⟨(hl i).mpr (Or.inl h1), h3⟩
  · intro d s t x i j h' hs ht hx hy
    rcases hd' d h' with hold | rfl
    · by_cases hdp : d = p
      · subst hdp
        exact names_added (fun s t x i j => h.names d s t x i j hold) newName added
          (fun s hs hne => same d s hold hs fun _ => hne) hs ht hx hy
      · rw [same d s hold hs (fun e => absurd e hdp)] at hx
        rw [same d t hold ht (fun e => absurd e hdp)] at hy
        exact h.names d s t x i j hold hs ht hx hy
    · exact leaf_names hdd (leaf h') hs ht hx hy
  · intro d e s t x y i h' h'' hs2 hs ht2 ht hx hy
    rcases ordinary d s x i h' hs2 hs hx with ⟨rfl, rfl, rfl, rfl⟩ | ⟨hold, hx, -⟩
    · rcases ordinary e t y i h'' ht2 ht hy with ⟨rfl, rfl, _⟩ | ⟨hold', hy, -⟩
      · exact ⟨rfl, rfl⟩
      · exact absurd (h.child e t y i hold' ht2 ht hy).1 hi₀
    · rcases ordinary e t y i h'' ht2 ht hy with ⟨rfl, rfl, rfl, rfl⟩ | ⟨hold', hy, -⟩
      · exact absurd (h.child d s x i hold hs2 hs hx).1 hi₀
      · exact h.once d e s t x y i hold hold' hs2 hs ht2 ht hx hy
  · intro i hi
    rcases (hl i).mp hi with hold | rfl
    · exact lift (h.reach i hold)
    · exact .entry (lift (h.reach p (h.dir_live p hp))) (hd p hp) h2 hs₀ added

/-- An object that holds no ordinary entries leaves together with its entry. -/
theorem removeLeaf (h : DirTree root n dir entry dot dotdot live) {i₀ p : ι} {s₀ : Nat} {x₀ : ν}
    (hr : i₀ ≠ root) (hp : dir p) (h2 : 2 ≤ s₀) (hs₀ : s₀ < n)
    (naming : entry p s₀ = some (x₀, i₀))
    (empty : dir i₀ → ∀ s, 2 ≤ s → s < n → entry i₀ s = none)
    (hl : ∀ i, live' i ↔ live i ∧ i ≠ i₀) (hd : ∀ i, dir' i ↔ dir i ∧ i ≠ i₀)
    (removed : entry' p s₀ = none)
    (same : ∀ d s, dir d → d ≠ i₀ → s < n → (d = p → s ≠ s₀) → entry' d s = entry d s) :
    DirTree root n dir' entry' dot dotdot live' := by
  have hpi : p ≠ i₀ := by
    rintro rfl
    rw [empty hp s₀ h2 hs₀] at naming
    cases naming
  have old (d : ι) (s : Nat) (x : ν) (i : ι) (h' : dir' d) (hs : s < n)
      (hx : entry' d s = some (x, i)) :
      dir d ∧ d ≠ i₀ ∧ entry d s = some (x, i) ∧ (d = p → s ≠ s₀) := by
    obtain ⟨hdd, hne⟩ := (hd d).mp h'
    have hps : d = p → s ≠ s₀ := by
      rintro rfl rfl
      rw [removed] at hx
      cases hx
    rw [same d s hdd hne hs hps] at hx
    exact ⟨hdd, hne, hx, hps⟩
  have keep (d : ι) (s : Nat) (x : ν) (i : ι) (hdd : dir d) (hne : i ≠ i₀) (hs2 : 2 ≤ s) (hs : s < n)
      (hx : entry d s = some (x, i)) : dir' d ∧ entry' d s = some (x, i) := by
    have hdi : d ≠ i₀ := by
      rintro rfl
      rw [empty hdd s hs2 hs] at hx
      cases hx
    refine ⟨(hd d).mpr ⟨hdd, hdi⟩, ?_⟩
    rw [same d s hdd hdi hs, hx]
    rintro rfl rfl
    rw [naming] at hx
    cases hx
    exact hne rfl
  have lift : ∀ i, DirReach root n dir entry i → i ≠ i₀ → DirReach root n dir' entry' i := by
    intro i hi
    induction hi with
    | root => exact fun _ => .root
    | @entry d i s x _ hdd hs2 hs he ih =>
      intro hne
      obtain ⟨hd', he'⟩ := keep d s x i hdd hne hs2 hs he
      exact .entry (ih ((hd d).mp hd').2) hd' hs2 hs he'
  constructor
  · intro d h'
    obtain ⟨hdd, hne⟩ := (hd d).mp h'
    exact (hl d).mpr ⟨h.dir_live d hdd, hne⟩
  · exact (hd root).mpr ⟨h.root_dir, hr.symm⟩
  · intro d h'
    obtain ⟨hdd, hne⟩ := (hd d).mp h'
    rw [same d 0 hdd hne (by omega) (fun _ => by omega), h.self d hdd]
  · intro d h'
    obtain ⟨hdd, hne⟩ := (hd d).mp h'
    obtain ⟨q, hq, hqd, hor⟩ := h.parent d hdd
    have hq' : entry' d 1 = some (dotdot, q) := by
      rw [same d 1 hdd hne (by omega) (fun _ => by omega), hq]
    rcases hor with ⟨rfl, rfl⟩ | ⟨s, x, hs2, hs, hx⟩
    · exact ⟨q, hq', h', Or.inl ⟨rfl, rfl⟩⟩
    · obtain ⟨hqd', hx'⟩ := keep q s x d hqd hne hs2 hs hx
      exact ⟨q, hq', hqd', Or.inr ⟨s, x, hs2, hs, hx'⟩⟩
  · intro d s x i h' hs2 hs hx
    obtain ⟨hdd, hne, hx, hps⟩ := old d s x i h' hs hx
    obtain ⟨h1, h3⟩ := h.child d s x i hdd hs2 hs hx
    refine ⟨(hl i).mpr ⟨h1, ?_⟩, h3⟩
    rintro rfl
    obtain ⟨rfl, rfl⟩ := h.once d p s s₀ x x₀ i hdd hp hs2 hs h2 hs₀ hx naming
    exact hps rfl rfl
  · intro d s t x i j h' hs ht hx hy
    obtain ⟨hdd, -, hx, -⟩ := old d s x i h' hs hx
    obtain ⟨-, -, hy, -⟩ := old d t x j h' ht hy
    exact h.names d s t x i j hdd hs ht hx hy
  · intro d e s t x y i h' h'' hs2 hs ht2 ht hx hy
    obtain ⟨hdd, -, hx, -⟩ := old d s x i h' hs hx
    obtain ⟨hde, -, hy, -⟩ := old e t y i h'' ht hy
    exact h.once d e s t x y i hdd hde hs2 hs ht2 ht hx hy
  · intro i hi
    obtain ⟨hli, hne⟩ := (hl i).mp hi
    exact lift i (h.reach i hli) hne

end DirTree

end SengOS
