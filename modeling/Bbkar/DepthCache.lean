import Bbkar.Planner
import Bbkar.Walks

/-!
# The memoised depth

On well-formed metadata the cache holds, for every archive, the number of archives above
it on its lineage. On acyclic metadata the recursion ends; parents may be missing there.
-/
namespace Bbkar
open ParentForest Relation Function Walks

/-- `p` is recorded as the parent of some archive named `x`. -/
def ParentOf (archives : List VolumeArchive) (x p : String) : Prop :=
  ∃ a ∈ archives, a.raw = x ∧ a.parentTimestamp = some p

def AcyclicParents (archives : List VolumeArchive) : Prop :=
  ∀ x, ¬ TransGen (ParentOf archives) x x

theorem WellFormed.acyclic {archives : List VolumeArchive} (h : WellFormed archives) :
    AcyclicParents archives := by
  have hlt : ∀ x y, TransGen (ParentOf archives) x y → y < x := by
    intro x y hxy
    induction hxy with
    | single hp =>
      obtain ⟨a, ha, rfl, hap⟩ := hp
      exact (h.parent a ha _ hap).1
    | tail _ hp ih =>
      obtain ⟨a, ha, rfl, hap⟩ := hp
      exact ((h.parent a ha _ hap).1).trans ih
  exact fun x hx => lt_irrefl x (hlt x x hx)

/-! ## The archive map -/

theorem foldl_update_get {β : Type} (pairs : List (String × β)) (m : String → Option β)
    (name : String) :
    pairs.foldl (fun (m : String → Option β) p => update m p.1 (some p.2)) m name =
      ((pairs.reverse.find? (fun p => p.1 == name)).map Prod.snd).or (m name) := by
  induction pairs generalizing m with
  | nil => simp
  | cons p pairs ih =>
    rw [List.foldl_cons, ih, List.reverse_cons, List.find?_append]
    cases hf : pairs.reverse.find? (fun p => p.1 == name) with
    | some q => simp
    | none =>
      by_cases hp : p.1 = name
      · simp [hp]
      · simp [hp, Ne.symm hp]

/-- The last archive of a name wins. -/
theorem archiveMapOf_eq (archives : List VolumeArchive) (name : String) :
    archiveMapOf archives name = archives.reverse.find? (fun a => a.raw == name) := by
  rw [archiveMapOf, hashMapOf, foldl_update_get, ← List.map_reverse, List.find?_map]
  simp [comp_def]

theorem archiveMapOf_some {archives : List VolumeArchive} {name : String} {a : VolumeArchive}
    (h : archiveMapOf archives name = some a) : a ∈ archives ∧ a.raw = name := by
  rw [archiveMapOf_eq] at h
  exact ⟨by simpa using List.mem_of_find?_eq_some h, by simpa using List.find?_some h⟩

theorem archiveMapOf_none {archives : List VolumeArchive} {name : String} :
    archiveMapOf archives name = none ↔ name ∉ raws archives := by
  simp [archiveMapOf_eq, raws]

/-- Without repeated timestamps the map and the first match agree. -/
theorem archiveMapOf_eq_forest {archives : List VolumeArchive} (hn : (raws archives).Nodup)
    (name : String) :
    (archiveMapOf archives name).map (·.parentTimestamp) = parentForest archives name := by
  cases h : archiveMapOf archives name with
  | none =>
    have hname := archiveMapOf_none.mp h
    by_contra hne
    exact hname (parentForest_ne_none.mp (Ne.symm hne))
  | some a =>
    obtain ⟨ha, rfl⟩ := archiveMapOf_some h
    exact ((parentForest_eq_some hn).mpr ⟨a, ha, rfl, rfl⟩).symm

/-! ## Termination -/

/-- `p` is the parent that the recursion goes to from `x`. -/
def LastParent (archives : List VolumeArchive) (x p : String) : Prop :=
  ∃ a, archiveMapOf archives x = some a ∧ a.parentTimestamp = some p

theorem LastParent.parentOf {archives : List VolumeArchive} {x p : String}
    (h : LastParent archives x p) : ParentOf archives x p := by
  obtain ⟨a, hx, hp⟩ := h
  obtain ⟨ha, hax⟩ := archiveMapOf_some hx
  exact ⟨a, ha, hax, hp⟩

theorem LastParent.mem_raws {archives : List VolumeArchive} {x p : String}
    (h : LastParent archives x p) : x ∈ raws archives := by
  obtain ⟨a, ha, hax, -⟩ := h.parentOf
  exact Bbkar.mem_raws.mpr ⟨a, ha, hax⟩

/-- A recursion that uses up its fuel has walked that many parents up. -/
theorem computeDepth_error {archives : List VolumeArchive} {fuel : ℕ} {x : String}
    {cache : String → Option ℕ} {e : Halt}
    (h : computeDepth (archiveMapOf archives) fuel x cache = .error e) :
    e = .diverges ∧ ∃ l, (x :: l).IsChain (LastParent archives) ∧ l.length = fuel ∧
      x :: l ⊆ raws archives := by
  induction fuel generalizing x cache with
  | zero =>
    unfold computeDepth at h
    cases hcx : cache x with
    | some d => simp [hcx] at h
    | none =>
      cases hx : archiveMapOf archives x with
      | none => simp [hcx, hx] at h
      | some a =>
        cases hp : a.parentTimestamp with
        | none => simp [hcx, hx, hp] at h
        | some p =>
          have hmem := LastParent.mem_raws ⟨a, hx, hp⟩
          simp only [hcx, hx, hp, Except.error.injEq] at h
          exact ⟨h.symm, [], by simp, rfl, by simpa using hmem⟩
  | succ fuel ih =>
    unfold computeDepth at h
    cases hcx : cache x with
    | some d => simp [hcx] at h
    | none =>
      cases hx : archiveMapOf archives x with
      | none => simp [hcx, hx] at h
      | some a =>
        cases hp : a.parentTimestamp with
        | none => simp [hcx, hx, hp] at h
        | some p =>
          have hstep : LastParent archives x p := ⟨a, hx, hp⟩
          cases hr : computeDepth (archiveMapOf archives) fuel p cache with
          | ok r => simp [hcx, hx, hp, hr] at h
          | error e' =>
            simp only [hcx, hx, hp, hr, Except.error.injEq] at h
            obtain ⟨he, l, hl, hlen, hsub⟩ := ih (h ▸ hr)
            refine ⟨he, p :: l, hl.cons_cons hstep, by simp [hlen], ?_⟩
            exact List.cons_subset.mpr ⟨hstep.mem_raws, hsub⟩

/-- Without a cycle the recursion ends. -/
theorem computeDepth_isOk {archives : List VolumeArchive}
    (h : ∀ x, ¬ TransGen (LastParent archives) x x) (x : String) (cache : String → Option ℕ) :
    ∃ r, computeDepth (archiveMapOf archives) archives.length x cache = .ok r := by
  cases hr : computeDepth (archiveMapOf archives) archives.length x cache with
  | ok r => exact ⟨r, rfl⟩
  | error e =>
    obtain ⟨-, l, hl, hlen, hsub⟩ := computeDepth_error hr
    have hlt : (raws archives).length < (x :: l).length := by simp [raws, hlen]
    obtain ⟨y, -, hy⟩ := exists_cycle_of_length_lt hl hsub hlt
    exact absurd hy (h y)

/-- `compute_depth` called for some archives in turn, with one cache. -/
def depthCalls (archives order : List VolumeArchive) (cache : String → Option ℕ) :
    BR (String → Option ℕ) :=
  order.foldlM
    (fun cache a => (computeDepth (archiveMapOf archives) archives.length a.raw cache).map
      Prod.snd)
    cache

theorem depthCacheOf_eq (archives : List VolumeArchive) :
    depthCacheOf archives = depthCalls archives archives (fun _ => none) := rfl

theorem depthCalls_cons {archives order : List VolumeArchive} {a : VolumeArchive}
    {cache : String → Option ℕ} :
    depthCalls archives (a :: order) cache =
      match computeDepth (archiveMapOf archives) archives.length a.raw cache with
      | .error e => .error e
      | .ok r => depthCalls archives order r.2 := by
  rw [depthCalls, List.foldlM_cons]
  cases computeDepth (archiveMapOf archives) archives.length a.raw cache <;> rfl

theorem depthCalls_isOk {archives : List VolumeArchive}
    (h : ∀ x, ¬ TransGen (LastParent archives) x x) (order : List VolumeArchive)
    (cache : String → Option ℕ) : ∃ cache', depthCalls archives order cache = .ok cache' := by
  induction order generalizing cache with
  | nil => exact ⟨cache, rfl⟩
  | cons a order ih =>
    obtain ⟨r, hr⟩ := computeDepth_isOk h a.raw cache
    obtain ⟨cache', hc⟩ := ih r.2
    exact ⟨cache', by rw [depthCalls_cons, hr]; exact hc⟩

theorem depthCacheOf_isOk_of_acyclic {archives : List VolumeArchive}
    (h : ∀ x, ¬ TransGen (LastParent archives) x x) :
    ∃ cache, depthCacheOf archives = .ok cache := by
  rw [depthCacheOf_eq]
  exact depthCalls_isOk h archives _

/-- On acyclic metadata the whole cache is computed. -/
theorem depthCacheOf_isOk {archives : List VolumeArchive} (h : AcyclicParents archives) :
    ∃ cache, depthCacheOf archives = .ok cache :=
  depthCacheOf_isOk_of_acyclic fun x hx =>
    h x (hx.lift id fun _ _ => LastParent.parentOf)

/-! ## Correctness -/

/-- Every entry is the length of a lineage, less one. -/
def CacheSound (F : Forest String) (cache : String → Option ℕ) : Prop :=
  ∀ name d, cache name = some d → ∃ l, Lineage F name l ∧ l.length = d + 1

/-- The entries are exactly the depths. -/
def DepthsOf (F : Forest String) (cache : String → Option ℕ) : Prop :=
  ∀ name d, cache name = some d ↔ ∃ l, Lineage F name l ∧ l.length = d + 1

theorem DepthsOf.unique {F : Forest String} {c c' : String → Option ℕ} (h : DepthsOf F c)
    (h' : DepthsOf F c') : c = c' := by
  funext name
  exact Option.ext fun d => (h name d).trans (h' name d).symm

theorem CacheSound.insert {F : Forest String} {cache : String → Option ℕ}
    (hc : CacheSound F cache) {name : String} {d : ℕ} {l : List String}
    (hl : Lineage F name l) (hlen : l.length = d + 1) :
    CacheSound F (update cache name (some d)) := by
  intro n e he
  rw [update_apply] at he
  split_ifs at he with hn
  · subst hn
    obtain rfl := Option.some.inj he
    exact ⟨l, hl, hlen⟩
  · exact hc n e he

/-- What a call that returns can have found: an entry, no parent, or a parent. -/
theorem computeDepth_cases {archiveMap : String → Option VolumeArchive} {fuel : ℕ}
    {name : String} {cache : String → Option ℕ} {r : ℕ × (String → Option ℕ)}
    (h : computeDepth archiveMap fuel name cache = .ok r) :
    (cache name = some r.1 ∧ r.2 = cache) ∨
    (cache name = none ∧ (archiveMap name).bind (·.parentTimestamp) = none ∧
      r = (0, update cache name (some 0))) ∨
    (cache name = none ∧ ∃ a p n r', archiveMap name = some a ∧ a.parentTimestamp = some p ∧
      fuel = n + 1 ∧ computeDepth archiveMap n p cache = .ok r' ∧
      r = (r'.1 + 1, update r'.2 name (some (r'.1 + 1)))) := by
  unfold computeDepth at h
  cases hcn : cache name with
  | some d =>
    simp only [hcn, Except.ok.injEq] at h
    subst h
    exact Or.inl ⟨rfl, rfl⟩
  | none =>
    refine Or.inr ?_
    cases hx : archiveMap name with
    | none =>
      simp only [hcn, hx, Except.ok.injEq] at h
      exact Or.inl ⟨rfl, rfl, h.symm⟩
    | some a =>
      cases hp : a.parentTimestamp with
      | none =>
        simp only [hcn, hx, hp, Except.ok.injEq] at h
        exact Or.inl ⟨rfl, hp, h.symm⟩
      | some p =>
        cases fuel with
        | zero => simp [hcn, hx, hp] at h
        | succ n =>
          cases hr : computeDepth archiveMap n p cache with
          | error e => simp [hcn, hx, hp, hr] at h
          | ok r' =>
            simp only [hcn, hx, hp, hr, Except.ok.injEq] at h
            exact Or.inr ⟨rfl, a, p, n, r', rfl, hp, rfl, hr, h.symm⟩

/-- One call keeps the cache sound, keeps its entries, and returns the depth it stores. -/
theorem computeDepth_sound {archives : List VolumeArchive} (hw : WellFormed archives)
    (fuel : ℕ) {name : String} {cache : String → Option ℕ} {r : ℕ × (String → Option ℕ)}
    (hname : name ∈ raws archives) (hc : CacheSound (parentForest archives) cache)
    (h : computeDepth (archiveMapOf archives) fuel name cache = .ok r) :
    CacheSound (parentForest archives) r.2 ∧ r.2 name = some r.1 ∧
      ∀ n d, cache n = some d → r.2 n = some d := by
  induction fuel using Nat.strong_induction_on generalizing name r with
  | _ fuel ih =>
    have hF := archiveMapOf_eq_forest hw.nodup name
    have hkeep : cache name = none → ∀ n d, cache n = some d → n ≠ name := by
      rintro hcn n d hd rfl
      simp [hcn] at hd
    rcases computeDepth_cases h with ⟨hcn, hcache⟩ | ⟨hcn, hp, rfl⟩ |
      ⟨hcn, a, p, n, r', hx, hp, hfuel, hr, rfl⟩
    · rw [hcache]
      exact ⟨hc, hcn, fun _ _ hd => hd⟩
    · obtain ⟨a, hx⟩ : ∃ a, archiveMapOf archives name = some a := by
        rw [← Option.ne_none_iff_exists', ne_eq, archiveMapOf_none, not_not]
        exact hname
      have hparent : a.parentTimestamp = none := by simpa [hx] using hp
      have hroot : parentForest archives name = some none := by
        rw [← hF, hx, Option.map_some, hparent]
      refine ⟨hc.insert (.root hroot) rfl, by simp, ?_⟩
      intro m d hd
      simpa [hkeep hcn m d hd] using hd
    · have hchild : parentForest archives name = some (some p) := by
        simpa [hx, hp] using hF.symm
      have hpmem : p ∈ raws archives := parentForest_ne_none.mp (hw.older name p hchild).2
      obtain ⟨hs, hget, hold⟩ := ih n (by omega) hpmem hr
      obtain ⟨l, hl, hlen⟩ := hs p r'.1 hget
      refine ⟨hs.insert (.child hchild hl) (by simp [hlen]), by simp, ?_⟩
      intro m d hd
      simpa [hkeep hcn m d hd] using hold m d hd

/-- Calls for some of the archives, in any order, keep the cache sound and fill it for them. -/
theorem depthCalls_sound {archives : List VolumeArchive} (hw : WellFormed archives)
    (order : List VolumeArchive) {c c' : String → Option ℕ} (hmem : ∀ a ∈ order, a ∈ archives)
    (hc : CacheSound (parentForest archives) c) (h : depthCalls archives order c = .ok c') :
    CacheSound (parentForest archives) c' ∧ (∀ n d, c n = some d → c' n = some d) ∧
      ∀ a ∈ order, c' a.raw ≠ none := by
  induction order generalizing c with
  | nil =>
    obtain rfl : c = c' := Except.ok.inj h
    exact ⟨hc, fun _ _ hd => hd, by simp⟩
  | cons a order ih =>
    rw [depthCalls_cons] at h
    split at h
    · cases h
    · next r hd =>
      have ha : a.raw ∈ raws archives := mem_raws.mpr ⟨a, hmem a (by simp), rfl⟩
      obtain ⟨hs, hget, hold⟩ := computeDepth_sound hw _ ha hc hd
      obtain ⟨hs', hold', hall⟩ := ih (fun b hb => hmem b (by simp [hb])) hs h
      refine ⟨hs', fun n d hn => hold' n d (hold n d hn), ?_⟩
      intro b hb
      rcases List.mem_cons.mp hb with rfl | hb
      · simp [hold' _ _ hget]
      · exact hall b hb

/-- A sound cache with an entry for every archive holds exactly the depths. -/
theorem CacheSound.depthsOf {archives : List VolumeArchive} {cache : String → Option ℕ}
    (hs : CacheSound (parentForest archives) cache) (hall : ∀ a ∈ archives, cache a.raw ≠ none) :
    DepthsOf (parentForest archives) cache := by
  intro name d
  refine ⟨hs name d, ?_⟩
  rintro ⟨l, hl, hlen⟩
  obtain ⟨a, ha, rfl⟩ := mem_raws.mp (parentForest_ne_none.mp hl.present)
  obtain ⟨e, he⟩ := Option.ne_none_iff_exists'.mp (hall a ha)
  obtain ⟨m, hm, hmlen⟩ := hs _ _ he
  have hde : e = d := by
    rw [hl.unique hm] at hlen
    omega
  rw [he, hde]

/-- The cache the planner starts from maps every archive to its depth and nothing else. -/
theorem depthCacheOf_depths {archives : List VolumeArchive} (hw : WellFormed archives)
    {cache : String → Option ℕ} (h : depthCacheOf archives = .ok cache) :
    DepthsOf (parentForest archives) cache := by
  obtain ⟨hs, -, hall⟩ :=
    depthCalls_sound hw archives (fun _ ha => ha) (by simp [CacheSound]) h
  exact hs.depthsOf hall

/-- Adding a name on top of known depths. -/
theorem DepthsOf.insert {F : Forest String} {cache : String → Option ℕ} (h : DepthsOf F cache)
    {k : String} {v : Option String} {d : ℕ} {l : List String} (ho : Older F) (hk : F k = none)
    (hl : Lineage (update F k (some v)) k l) (hlen : l.length = d + 1) :
    DepthsOf (update F k (some v)) (update cache k (some d)) := by
  have hmono : ∀ x w, F x = some w → update F k (some v) x = some w := by
    intro x w hx
    have hne : x ≠ k := by rintro rfl; simp [hk] at hx
    simpa [hne] using hx
  intro name e
  rw [update_apply]
  split_ifs with hn
  · subst hn
    constructor
    · intro he
      obtain rfl := Option.some.inj he
      exact ⟨l, hl, hlen⟩
    · rintro ⟨m, hm, hmlen⟩
      rw [hl.unique hm] at hlen
      exact congrArg some (by omega)
  · rw [h name e]
    constructor
    · rintro ⟨m, hm, hmlen⟩
      exact ⟨m, hm.mono hmono, hmlen⟩
    · rintro ⟨m, hm, hmlen⟩
      exact ⟨m, hm.of_update ho hk hn, hmlen⟩

end Bbkar
