import Mathlib.Data.List.TakeWhile
import SengOS.Fs.Dirents

/-!
# Paths as lists of components

Both path walkers of `fs.c` read the same components of a path. `walk` and
`splitWalk` are what the two loops compute on the list of components; they
part ways only where the look-ahead of `split_parent` meets a component that
is too long.
-/

namespace SengOS

/-- What stands between the slashes. -/
def components (p : List Byte) : List (List Byte) := (p.splitOn slash).filter (fun c => !c.isEmpty)

/-- A component that is neither "." nor "..". -/
def Ordinary (c : List Byte) : Prop := c ≠ dotName ∧ c ≠ dotdotName

/-! ## `next_component` -/

theorem components_slash (p : List Byte) : components (slash :: p) = components p := by
  have := List.splitOn_append_cons_self (a := slash) [] p
  simp only [List.nil_append] at this
  simp [components, this]

theorem components_dropSlashes (p : List Byte) :
    components p = components (p.dropWhile (· == slash)) := by
  induction p with
  | nil => rfl
  | cons b p ih =>
    by_cases hb : b = slash
    · subst hb
      rw [components_slash, ih]
      simp
    · simp [hb]

/-- A path that starts with a name. -/
theorem components_name {x r : List Byte} (hx : x ≠ []) (hs : slash ∉ x)
    (hr : r = [] ∨ r.head? = some slash) : components (x ++ r) = x :: components r := by
  have hne : (!x.isEmpty) = true := by simpa using hx
  cases r with
  | nil =>
    rw [List.append_nil, components, List.splitOn_eq_singleton hs]
    simp [hne, components]
  | cons b r =>
    simp only [reduceCtorEq, List.head?_cons, Option.some.injEq, false_or] at hr
    subst hr
    rw [components, List.splitOn_append_cons_self, List.splitOn_eq_singleton hs, components_slash]
    simp [hne, components]

theorem components_append (p q : List Byte) :
    components (p ++ slash :: q) = components p ++ components q := by
  rw [components, List.splitOn_append_cons_self, List.filter_append]
  rfl

theorem components_dot (p : List Byte) : components (dotName ++ slash :: p) = dotName :: components p := by
  rw [components_append]
  rfl

/-- What a component is made of. -/
structure Piece (p name rest : List Byte) : Prop where
  ne_nil : name ≠ []
  no_slash : slash ∉ name
  comps : components p = name :: components rest
  name_sub : ∀ b ∈ name, b ∈ p
  rest_sub : ∀ b ∈ rest, b ∈ p
  shorter : rest.length < p.length

/-- A component is read off the front, unless only slashes are left. -/
theorem components_piece {p s : List Byte} (hs : p.dropWhile (· == slash) = s) (hne : s ≠ []) :
    Piece p (s.takeWhile (· != slash)) (s.dropWhile (· != slash)) := by
  have hsub : ∀ b ∈ s, b ∈ p := fun b hb => (List.dropWhile_suffix _).subset (hs ▸ hb)
  have hhead : s.head hne ≠ slash := by
    have := List.head_dropWhile_not (· == slash) (by rw [hs]; exact hne)
    simpa [hs] using this
  have hname : s.takeWhile (· != slash) ≠ [] := by
    obtain ⟨b, t, rfl⟩ := List.exists_cons_of_ne_nil hne
    simp only [List.head_cons] at hhead
    simp [hhead]
  have hno : slash ∉ s.takeWhile (· != slash) := by
    intro hm
    have := List.mem_takeWhile_imp hm
    simp at this
  have happ : s.takeWhile (· != slash) ++ s.dropWhile (· != slash) = s := List.takeWhile_append_dropWhile
  refine ⟨hname, hno, ?_, ?_, ?_, ?_⟩
  · rw [components_dropSlashes p, hs, ← happ, components_name hname hno ?_, happ]
    cases hr : s.dropWhile (· != slash) with
    | nil => exact Or.inl rfl
    | cons b r =>
      right
      have := List.head_dropWhile_not (· != slash) (by rw [hr]; simp)
      simp only [hr, List.head_cons, bne_eq_false_iff_eq] at this
      simp [this]
  · exact fun b hb => hsub b ((List.takeWhile_prefix _).subset hb)
  · exact fun b hb => hsub b ((List.dropWhile_suffix _).subset hb)
  · have hlen : s.length ≤ p.length := by
      rw [← hs]
      exact (List.dropWhile_suffix _).length_le
    have hpos : 0 < (s.takeWhile (· != slash)).length := List.length_pos_iff.mpr hname
    have := congrArg List.length happ
    rw [List.length_append] at this
    omega

theorem nextComponent_cases (p : List Byte) :
    (nextComponent p = .done ∧ components p = []) ∨
    (nextComponent p = .tooLong ∧ ∃ c cs, components p = c :: cs ∧ 27 < c.length) ∨
    ∃ name rest, nextComponent p = .part name rest ∧ name.length ≤ 27 ∧ Piece p name rest := by
  unfold nextComponent
  by_cases hs : p.dropWhile (· == slash) = []
  · left
    simp only [hs, ↓reduceIte, true_and]
    rw [components_dropSlashes, hs]
    rfl
  · have piece := components_piece rfl hs
    simp only [hs, ↓reduceIte]
    right
    split
    · left
      exact ⟨rfl, _, _, piece.comps, by omega⟩
    · right
      exact ⟨_, _, rfl, by omega, piece⟩

/-! ## Walking a list of components -/

section
variable (find : Nat → List Byte → Option Nat)

def walk : Nat → List (List Byte) → Option Nat
  | cur, [] => some cur
  | cur, c :: cs =>
    if 27 < c.length then none
    else if c = dotName then walk cur cs
    else (find cur c).bind fun child => walk child cs

/-- The look-ahead: another component follows, and it is short enough. -/
def followed (cs : List (List Byte)) : Bool := cs.head?.any fun d => d.length ≤ 27

def splitWalk : Nat → List (List Byte) → Option (Nat × List Byte)
  | _, [] => none
  | cur, c :: cs =>
    if 27 < c.length then none
    else if c = dotName then splitWalk cur cs
    else if c = dotdotName then (find cur c).bind fun child => splitWalk child cs
    else if followed cs then (find cur c).bind fun child => splitWalk child cs
    else some (cur, c)

variable {find}

/-- The loop of `resolve_path` walks the components. -/
theorem resolveLoop_eq (fuel cur : Nat) (p : List Byte) (h : p.length < fuel) :
    resolveLoop find fuel cur p = walk find cur (components p) := by
  induction fuel generalizing cur p with
  | zero => omega
  | succ fuel ih =>
    rw [resolveLoop]
    rcases nextComponent_cases p with ⟨hn, hc⟩ | ⟨hn, c, cs, hc, hlen⟩ | ⟨name, rest, hn, hlen, piece⟩
    · rw [hn, hc]
      rfl
    · rw [hn, hc, walk, if_pos hlen]
    · have hrest := piece.shorter
      rw [hn, piece.comps, walk, if_neg (by omega)]
      dsimp only
      by_cases hd : name = dotName
      · rw [if_pos hd, if_pos hd, ih _ _ (by omega)]
      · rw [if_neg hd, if_neg hd]
        cases find cur name with
        | none => rfl
        | some child => exact ih _ _ (by omega)

theorem resolvePath_eq {p : List Byte} (hp : p ≠ []) (start : Nat) :
    resolvePath find p start =
      walk find (if p.head? = some slash then 0 else start) (components p) := by
  rw [resolvePath, if_neg hp]
  exact resolveLoop_eq _ _ _ (Nat.lt_succ_self _)

/-- The loop of `split_parent` walks the same components. -/
theorem splitLoop_eq (fuel cur : Nat) (p : List Byte) (h : p.length < fuel) :
    splitLoop find fuel cur p = splitWalk find cur (components p) := by
  induction fuel generalizing cur p with
  | zero => omega
  | succ fuel ih =>
    rw [splitLoop]
    rcases nextComponent_cases p with ⟨hn, hc⟩ | ⟨hn, c, cs, hc, hlen⟩ | ⟨name, rest, hn, hlen, piece⟩
    · rw [hn, hc]
      rfl
    · rw [hn, hc, splitWalk, if_pos hlen]
    · have hrest := piece.shorter
      rw [hn, piece.comps, splitWalk, if_neg (by omega)]
      dsimp only
      by_cases hd : name = dotName
      · rw [if_pos hd, if_pos hd, ih _ _ (by omega)]
      rw [if_neg hd, if_neg hd]
      by_cases hdd : name = dotdotName
      · rw [if_pos hdd, if_pos hdd, hdd]
        cases find cur dotdotName with
        | none => rfl
        | some child => exact ih _ _ (by omega)
      rw [if_neg hdd, if_neg hdd]
      -- the look-ahead decides whether this name is the last one
      rcases nextComponent_cases rest with ⟨hn', hc'⟩ | ⟨hn', c, cs, hc', hlen'⟩ | ⟨y, ys, hn', hlen', piece'⟩
      · rw [hn', hc']
        rfl
      · rw [hn', hc']
        simp [followed, hlen']
      · have hf : followed (components rest) = true := by
          simp [followed, piece'.comps, hlen']
        rw [hn', if_pos hf]
        dsimp only
        cases find cur name with
        | none => rfl
        | some child => exact ih _ _ (by omega)

/-! ## What the walks return -/

theorem walk_append (cur : Nat) (as bs : List (List Byte)) :
    walk find cur (as ++ bs) = (walk find cur as).bind fun q => walk find q bs := by
  induction as generalizing cur with
  | nil => rfl
  | cons c cs ih =>
    rw [List.cons_append, walk, walk]
    split
    · rfl
    · split
      · exact ih cur
      · cases find cur c with
        | none => rfl
        | some child => exact ih child

theorem walk_dot (cur : Nat) (cs : List (List Byte)) : walk find cur (dotName :: cs) = walk find cur cs := by
  rw [walk, if_neg (by decide), if_pos rfl]

/-- A path and a relative path joined by a slash. -/
theorem resolvePath_append {p q : List Byte} (hp : p ≠ []) (hq : q ≠ []) (hrel : q.head? ≠ some slash)
    (start : Nat) : resolvePath find (p ++ slash :: q) start =
      (resolvePath find p start).bind fun d => resolvePath find q d := by
  have hhead : (p ++ slash :: q).head? = p.head? := by
    cases p with
    | nil => exact absurd rfl hp
    | cons b p => rfl
  have hlater (d : Nat) : resolvePath find q d = walk find d (components q) := by
    rw [resolvePath_eq hq, if_neg hrel]
  rw [resolvePath_eq (by simp), resolvePath_eq hp, hhead, components_append, walk_append]
  simp only [hlater]

/-- Only the first byte and the components of a path count. -/
theorem resolvePath_congr {p q : List Byte} (hp : p ≠ []) (hq : q ≠ [])
    (hhead : p.head? = some slash ↔ q.head? = some slash) {start : Nat}
    (hwalk : ∀ cur, walk find cur (components p) = walk find cur (components q)) :
    resolvePath find p start = resolvePath find q start := by
  rw [resolvePath_eq hp, resolvePath_eq hq, hwalk]
  simp only [hhead]

/-- A lookup that finds more leads to the same places. -/
theorem walk_mono {find' : Nat → List Byte → Option Nat}
    (h : ∀ e y k, find e y = some k → find' e y = some k) {cs : List (List Byte)} {cur j : Nat}
    (hw : walk find cur cs = some j) : walk find' cur cs = some j := by
  induction cs generalizing cur with
  | nil => exact hw
  | cons c cs ih =>
    rw [walk] at hw ⊢
    split at hw
    · cases hw
    rename_i hlen
    rw [if_neg hlen]
    split at hw
    · rename_i hd
      rw [if_pos hd]
      exact ih hw
    · rename_i hd
      obtain ⟨child, hc, hw⟩ := Option.bind_eq_some_iff.mp hw
      rw [if_neg hd, h cur c child hc]
      exact ih hw

/-- `split_parent` stops at the first ordinary name whose successor is missing
or too long; what comes before it leads to the parent. -/
structure Stops (find : Nat → List Byte → Option Nat) (cur : Nat) (cs : List (List Byte)) (q : Nat)
    (x : List Byte) (pre post : List (List Byte)) : Prop where
  comps : cs = pre ++ x :: post
  short : ∀ c ∈ pre, c.length ≤ 27
  name_short : x.length ≤ 27
  ordinary : Ordinary x
  reach : walk find cur pre = some q
  last : followed post = false

theorem splitWalk_stops (cur : Nat) (cs : List (List Byte)) {q : Nat} {x : List Byte}
    (h : splitWalk find cur cs = some (q, x)) : ∃ pre post, Stops find cur cs q x pre post := by
  induction cs generalizing cur with
  | nil => cases h
  | cons c cs ih =>
    rw [splitWalk] at h
    split at h
    · cases h
    rename_i hlen
    have hc : c.length ≤ 27 := by omega
    have onward {child : Nat} (hw : ∀ pre, walk find cur (c :: pre) = walk find child pre)
        (h : splitWalk find child cs = some (q, x)) : ∃ pre post, Stops find cur (c :: cs) q x pre post := by
      obtain ⟨pre, post, st⟩ := ih child h
      refine ⟨c :: pre, post, by rw [st.comps]; rfl, ?_, st.name_short, st.ordinary, ?_, st.last⟩
      · intro d hd
        rcases List.mem_cons.mp hd with rfl | hd
        · exact hc
        · exact st.short d hd
      · rw [hw]
        exact st.reach
    have enter {child : Nat} (hd : c ≠ dotName) (hf : find cur c = some child) (pre : List (List Byte)) :
        walk find cur (c :: pre) = walk find child pre := by
      rw [walk, if_neg hlen, if_neg hd, hf]
      rfl
    split at h
    · rename_i hd
      exact onward (fun pre => by rw [walk, if_neg hlen, if_pos hd]) h
    rename_i hd
    split at h
    · obtain ⟨child, hf, h⟩ := Option.bind_eq_some_iff.mp h
      exact onward (enter hd hf) h
    rename_i hdd
    split at h
    · obtain ⟨child, hf, h⟩ := Option.bind_eq_some_iff.mp h
      exact onward (enter hd hf) h
    · rename_i hfol
      cases h
      exact ⟨[], cs, rfl, by simp, hc, ⟨hd, hdd⟩, rfl, by simpa using hfol⟩

theorem Stops.splitWalk {cur : Nat} {cs : List (List Byte)} {q : Nat} {x : List Byte}
    {pre post : List (List Byte)} (h : Stops find cur cs q x pre post) :
    splitWalk find cur cs = some (q, x) := by
  obtain ⟨rfl, short, hx, ord, reach, last⟩ := h
  have hx' : ¬ 27 < x.length := by omega
  induction pre generalizing cur with
  | nil =>
    cases reach
    rw [List.nil_append, SengOS.splitWalk, if_neg hx', if_neg ord.1, if_neg ord.2, last]
    rfl
  | cons c pre ih =>
    have hc : ¬ 27 < c.length := by
      have := short c List.mem_cons_self
      omega
    have short' : ∀ d ∈ pre, d.length ≤ 27 := fun d hd => short d (List.mem_cons_of_mem _ hd)
    have fol : followed (pre ++ x :: post) = true := by
      cases pre with
      | nil => simp [followed, hx]
      | cons d pre => simpa [followed] using short' d List.mem_cons_self
    rw [walk, if_neg hc] at reach
    rw [List.cons_append, SengOS.splitWalk, if_neg hc]
    split at reach
    · rename_i hd
      rw [if_pos hd]
      exact ih short' reach
    · rename_i hd
      obtain ⟨child, hf, reach⟩ := Option.bind_eq_some_iff.mp reach
      rw [if_neg hd, fol, hf]
      have := ih short' reach
      simp [this]

/-- What the whole path denotes, seen from where `split_parent` stopped. -/
theorem Stops.walk {cur : Nat} {cs : List (List Byte)} {q : Nat} {x : List Byte}
    {pre post : List (List Byte)} (h : Stops find cur cs q x pre post) :
    walk find cur cs = if post = [] then find q x else none := by
  have hx : ¬ 27 < x.length := by
    have := h.name_short
    omega
  rw [h.comps, walk_append, h.reach, Option.bind_some, SengOS.walk, if_neg hx, if_neg h.ordinary.1]
  cases hp : post with
  | nil => cases find q x <;> rfl
  | cons d ds =>
    have hd : 27 < d.length := by
      have := h.last
      rw [hp] at this
      simpa [followed] using this
    cases find q x with
    | none => rfl
    | some child => simp [SengOS.walk, hd]

/-! ## Live inodes -/

theorem components_good (p : List Byte) : ∀ c ∈ components p, c ≠ [] ∧ slash ∉ c ∧ ∀ b ∈ c, b ∈ p := by
  induction hn : p.length using Nat.strong_induction_on generalizing p with
  | _ n ih =>
    intro c hc
    by_cases hs : p.dropWhile (· == slash) = []
    · rw [components_dropSlashes, hs] at hc
      cases hc
    · have piece := components_piece rfl hs
      rw [piece.comps] at hc
      rcases List.mem_cons.mp hc with rfl | hc
      · exact ⟨piece.ne_nil, piece.no_slash, piece.name_sub⟩
      · obtain ⟨h1, h2, h3⟩ := ih _ (hn ▸ piece.shorter) _ rfl c hc
        exact ⟨h1, h2, fun b hb => piece.rest_sub b (h3 b hb)⟩

/-- Components of a C string that are short enough are names. -/
theorem goodName_component {p c : List Byte} (h0 : 0#8 ∉ p) (hc : c ∈ components p)
    (hlen : c.length ≤ 27) : GoodName c := by
  obtain ⟨h1, h2, h3⟩ := components_good p c hc
  exact ⟨h1, hlen, fun h => h0 (h3 _ h), h2⟩

/-- A lookup that finds only live inodes keeps a walk among them. -/
theorem walk_live {Live : Nat → Prop}
    (hf : ∀ i x j, Live i → GoodName x → find i x = some j → Live j) {cs : List (List Byte)}
    (hcs : ∀ c ∈ cs, c.length ≤ 27 → GoodName c) {cur j : Nat} (hl : Live cur)
    (h : walk find cur cs = some j) : Live j := by
  induction cs generalizing cur with
  | nil =>
    cases h
    exact hl
  | cons c cs ih =>
    have hcs' : ∀ d ∈ cs, d.length ≤ 27 → GoodName d := fun d hd => hcs d (List.mem_cons_of_mem _ hd)
    rw [walk] at h
    split at h
    · cases h
    rename_i hlen
    split at h
    · exact ih hcs' hl h
    · obtain ⟨child, hc, h⟩ := Option.bind_eq_some_iff.mp h
      exact ih hcs' (hf cur c child hl (hcs c List.mem_cons_self (by omega)) hc) h

/-- Two lookups that agree along the way lead to the same place. -/
theorem walk_congr {find' : Nat → List Byte → Option Nat} {Live : Nat → Prop}
    (hf : ∀ i x j, Live i → GoodName x → find i x = some j → Live j)
    (heq : ∀ i x j, Live i → GoodName x → find i x = some j → find' i x = some j)
    {cs : List (List Byte)} (hcs : ∀ c ∈ cs, c.length ≤ 27 → GoodName c) {cur j : Nat} (hl : Live cur)
    (h : walk find cur cs = some j) : walk find' cur cs = some j := by
  induction cs generalizing cur with
  | nil => exact h
  | cons c cs ih =>
    have hcs' : ∀ d ∈ cs, d.length ≤ 27 → GoodName d := fun d hd => hcs d (List.mem_cons_of_mem _ hd)
    rw [walk] at h ⊢
    split at h
    · cases h
    rename_i hlen
    rw [if_neg hlen]
    split at h
    · rename_i hd
      rw [if_pos hd]
      exact ih hcs' hl h
    · rename_i hd
      obtain ⟨child, hc, h⟩ := Option.bind_eq_some_iff.mp h
      have good := hcs c List.mem_cons_self (by omega)
      rw [if_neg hd, heq cur c child hl good hc]
      exact ih hcs' (hf cur c child hl good hc) h

end

end SengOS
