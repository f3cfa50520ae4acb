import Mathlib.Data.Rat.Floor
import ValueIteration.Belief.Filter

/-!
# The discipline of the scratch buffer

Every operation keeps the histogram supported by its list of active cells, and these cells
free. A deposit finds the cells it has to list by reading zeros in `scratch`; the scatter
passes leave zeros behind, and so does a reseed, but the min-plus shift does not. As long
as no reseed follows such a shift, every deposit starts from a zero buffer and no
candidate of a reseed is lost.
-/

set_option autoImplicit false
set_option linter.unusedSectionVars false

namespace ValueIteration

variable {K : Type} [Field K] [LinearOrder K] [FloorRing K]

namespace Event

def isReseed : Event K → Bool
  | reseed .. => true
  | _ => false

def isShift : Event K → Bool
  | shift => true
  | _ => false

/-- A deposit found zeros, and a reseed left every candidate pose that can be occupied
listed and with belief. -/
def Sound : Event K → Prop
  | shift => True
  | scatter scratch => ∀ p, scratch p = 0
  | reseed scratch cands free b active =>
    (∀ p, scratch p = 0) ∧
      ∀ cand ∈ cands, 0 < cand.1 → free cand.2 = true → cand.2 ∈ active ∧ 0 < b cand.2

/-- The candidates that can be occupied and that a reseed did not list. -/
def lostPoses : Event K → List Pos
  | reseed _ cands free _ active =>
    (cands.filter fun cand => 0 < cand.1 ∧ free cand.2 = true ∧ cand.2 ∉ active).map Prod.snd
  | _ => []

theorem Sound.lostPoses {e : Event K} (h : e.Sound) : e.lostPoses = [] := by
  cases e with
  | shift => rfl
  | scatter => rfl
  | reseed scratch cands free b active =>
    have hnone : (cands.filter fun cand => 0 < cand.1 ∧ free cand.2 = true ∧ cand.2 ∉ active) = [] := by
      apply List.filter_eq_nil_iff.mpr
      intro cand hcand hlost
      obtain ⟨hsc, hfree, hmem⟩ := of_decide_eq_true hlost
      exact hmem (h.2 cand hcand hsc hfree).1
    exact congrArg (List.map Prod.snd) hnone

/-- No reseed comes after a min-plus shift; the latest event is the first of the list. -/
def Orderly (trace : List (Event K)) : Prop :=
  trace.Pairwise fun later earlier => later.isReseed = true → earlier.isShift = false

instance (trace : List (Event K)) : Decidable (Orderly trace) := by
  unfold Orderly
  infer_instance

end Event

/-- The part of a filter that the discipline is about. -/
structure Buffers (K : Type) where
  dims : Dims
  isOpen : Pos → Bool
  viterbi : Bool
  globalMatch : Bool
  skipRatio : K
  b : Pos → K
  active : List Pos
  scratch : Pos → WithTop K
  trace : List (Event K)

namespace Buffers

structure Disciplined (u : Buffers K) : Prop where
  supports : Sparse.Supports u.b u.active
  inside : ∀ p ∈ u.active, u.isOpen p = true
  clean : Event.shift ∉ u.trace → ∀ p, u.scratch p = 0
  mode : Event.shift ∈ u.trace → u.viterbi = true
  matched : ∀ e ∈ u.trace, e.isReseed = true → u.globalMatch = true
  sound : Event.Orderly u.trace → ∀ e ∈ u.trace, e.Sound
  ratio : 0 ≤ u.skipRatio
  turns : 0 < u.dims.nt

end Buffers

namespace Belief

section
variable (s : Belief K)

def buffers : Buffers K where
  dims := s.dims
  isOpen := s.openPose
  viterbi := s.cfg.viterbi
  globalMatch := s.cfg.globalMatch
  skipRatio := s.cfg.weightSkipRatio
  b := s.b
  active := s.active
  scratch := s.scratch
  trace := s.trace

def Disciplined : Prop := s.buffers.Disciplined

end

section
variable {s : Belief K}

theorem mem_freePoses {p : Pos} : p ∈ s.freePoses ↔ s.openPose p = true := by
  unfold freePoses openPose
  rw [List.mem_filter, Dims.mem_planes, Bool.and_eq_true, decide_eq_true_eq]

theorem nodup_freePoses : s.freePoses.Nodup := s.dims.nodup_planes.filter _

namespace Disciplined

theorem supported (h : s.Disciplined) : Sparse.Supports s.b s.active := h.supports

theorem active_open (h : s.Disciplined) : ∀ p ∈ s.active, s.openPose p = true := h.inside

/-- A new histogram on open poses, with the scratch buffer as it was. -/
theorem withBelief (h : s.Disciplined) {b : Pos → K} {active : List Pos}
    (hb : Sparse.Supports b active) (hin : ∀ p ∈ active, s.openPose p = true) :
    ({ s with b := b, active := active } : Belief K).Disciplined :=
  ⟨hb, hin, h.clean, h.mode, h.matched, h.sound, h.ratio, h.turns⟩

theorem clearActive (h : s.Disciplined) : s.clearActive.Disciplined :=
  h.withBelief (Sparse.Supports.of_zero h.supported.toLists.erase)
    fun _ hp => absurd hp List.not_mem_nil

/-- Rewriting along a list of open poses that covers the active ones. -/
theorem rewrite (h : s.Disciplined) {l : List Pos} (hl : l.Nodup)
    (hopen : ∀ p ∈ l, s.openPose p = true) (hsub : ∀ p ∈ s.active, p ∈ l) {f : Pos → K → K}
    (hf : ∀ p ∈ l, 0 < f p (s.b p)) :
    ({ s with b := Sparse.modify f l s.b, active := l } : Belief K).Disciplined :=
  h.withBelief (h.supported.rewrite hl hsub hf) hopen

/-- A reset lists new cells over an empty histogram. -/
theorem fill (h : s.Disciplined) {l : List Pos} (hl : l.Nodup)
    (hopen : ∀ p ∈ l, s.openPose p = true) {f : Pos → K → K}
    (hf : ∀ p ∈ l, 0 < f p 0) :
    ({ s.clearActive with b := Sparse.modify f l s.clearActive.b, active := l } :
      Belief K).Disciplined := by
  apply h.clearActive.rewrite hl hopen
  · exact fun p hp => absurd hp List.not_mem_nil
  · intro p hp
    rw [h.clearActive.supported.zero p List.not_mem_nil]
    exact hf p hp

theorem recomputeEss (h : s.Disciplined) : s.recomputeEss.Disciplined := h

theorem dropPending (h : s.Disciplined) : s.dropPending.Disciplined := h

variable [IsStrictOrderedRing K]

theorem normalizeActive (h : s.Disciplined) : s.normalizeActive.Disciplined :=
  h.withBelief h.supported.normalize h.active_open

theorem predict (h : s.Disciplined) (v wDeg dt : K) : (s.predict v wDeg dt).Disciplined := by
  unfold Belief.predict
  split
  · exact h
  · exact h

/-- A scatter pass of the sum mode: the buffers trade places, both in order. -/
theorem scatterPass (h : s.Disciplined) (hv : s.cfg.viterbi = false)
    {emit : Pos → K → List (Pos × K)}
    (hemit : ∀ p ∈ s.active, ∀ w, ∀ d ∈ emit p w, s.openPose d.1 = true) :
    (s.scatterPass emit).Disciplined := by
  have hshift : Event.shift ∉ s.trace := fun hmem => by
    have hmode : s.cfg.viterbi = true := h.mode hmem
    rw [hv] at hmode
    exact Bool.noConfusion hmode
  have hz : ∀ p, s.scratch p = 0 := h.clean hshift
  obtain ⟨hold, hnew, htarget⟩ := h.supported.scatter hz emit
  refine ⟨hnew, fun p hp => ?_, fun _ p => ?_, fun hmem => ?_, fun e he hre => ?_,
    fun hord e he => ?_, h.ratio, h.turns⟩
  · obtain ⟨q, hq, m, hm⟩ := htarget p hp
    exact hemit q hq _ _ hm
  · show ((Sparse.scatter emit s.active s.b s.scratch).1 p : WithTop K) = 0
    rw [hold p]
    rfl
  · rcases List.mem_cons.mp hmem with heq | hmem
    · cases heq
    · exact absurd hmem hshift
  · rcases List.mem_cons.mp he with rfl | he
    · cases hre
    · exact h.matched e he hre
  · rcases List.mem_cons.mp he with rfl | he
    · exact hz
    · exact h.sound (List.pairwise_cons.mp hord).2 e he

theorem openPose_of_openAt {x y t : Int} {p : Pos} (ht : 0 ≤ t ∧ t < s.dims.nt)
    (hp : s.openAt x y t = some p) : s.openPose p = true ∧ p = ⟨x, y, t⟩ := by
  unfold openAt at hp
  split at hp
  · cases hp
  · next hin =>
    split at hp
    · next hfree =>
      obtain rfl := Option.some.inj hp
      refine ⟨?_, rfl⟩
      unfold openPose
      rw [Bool.and_eq_true, decide_eq_true_eq]
      refine ⟨?_, hfree⟩
      unfold Dims.Contains
      simp only
      omega
    · cases hp

/-- A pose whose heading turns to another bin stays in its cell. -/
theorem openPose_turn {p : Pos} (hp : s.openPose p = true) {t : Int} (ht : 0 ≤ t ∧ t < s.dims.nt) :
    s.openPose ⟨p.ix, p.iy, t⟩ = true := by
  unfold openPose at hp ⊢
  rw [Bool.and_eq_true, decide_eq_true_eq] at hp ⊢
  obtain ⟨⟨hx, hy, _⟩, hfree⟩ := hp
  exact ⟨⟨hx, hy, ht⟩, hfree⟩

theorem heading_of_openPose {p : Pos} (hp : s.openPose p = true) : 0 ≤ p.it ∧ p.it < s.dims.nt := by
  unfold openPose at hp
  rw [Bool.and_eq_true, decide_eq_true_eq] at hp
  exact hp.1.2.2

theorem heading_emod (h : s.Disciplined) (t : Int) : 0 ≤ t % s.dims.nt ∧ t % s.dims.nt < s.dims.nt := by
  have hnt : 0 < s.dims.nt := h.turns
  exact ⟨Int.emod_nonneg t (by omega), Int.emod_lt_of_pos t (by omega)⟩

theorem diffuseScatter (h : s.Disciplined) (hv : s.cfg.viterbi = false) (aXy aT : K) :
    (s.diffuseScatter aXy aT).Disciplined := by
  apply h.scatterPass hv
  intro p hp w d hd
  have hopen := h.active_open p hp
  unfold diffuseTargets at hd
  simp only [List.cons_append, List.mem_cons, List.mem_append] at hd
  rcases hd with rfl | hd | hd
  · exact hopen
  · obtain ⟨c, _, hc⟩ := List.mem_filterMap.mp hd
    obtain ⟨q, hq, rfl⟩ := Option.map_eq_some_iff.mp hc
    exact (openPose_of_openAt (heading_of_openPose hopen) hq).1
  · split at hd
    · obtain ⟨t, htmem, rfl⟩ := List.mem_map.mp hd
      apply openPose_turn hopen
      simp only [List.mem_cons, List.not_mem_nil, or_false] at htmem
      rcases htmem with rfl | rfl
      · exact h.heading_emod _
      · exact h.heading_emod _
    · exact absurd hd List.not_mem_nil

section Transport
variable [Analytic K]

theorem enterMode (h : s.Disciplined) : s.enterMode.Disciplined := by
  unfold Belief.enterMode
  split
  · exact h
  · exact h

theorem shiftScatter (h : s.Disciplined) (hv : s.cfg.viterbi = false) (pf ptDeg : K) :
    (s.shiftScatter pf ptDeg).Disciplined := by
  apply h.scatterPass hv
  intro p _ w d hd
  unfold shiftTargets at hd
  simp only [List.mem_flatMap] at hd
  obtain ⟨⟨t, wt⟩, _, hd⟩ := hd
  by_cases ht : wt ≤ 0
  · simp only [if_pos ht, List.not_mem_nil] at hd
  · simp only [if_neg ht, List.mem_flatMap] at hd
    obtain ⟨⟨y, wy⟩, _, hd⟩ := hd
    by_cases hy : wy ≤ 0
    · simp only [if_pos hy, List.not_mem_nil] at hd
    · simp only [if_neg hy, List.mem_flatMap] at hd
      obtain ⟨⟨x, wx⟩, _, hd⟩ := hd
      by_cases hx : wx ≤ 0
      · simp only [if_pos hx, List.not_mem_nil] at hd
      · simp only [if_neg hx] at hd
        split at hd
        · exact absurd hd List.not_mem_nil
        · next q hq =>
          obtain rfl := List.mem_singleton.mp hd
          exact (openPose_of_openAt (h.heading_emod t) hq).1

theorem flushSum (h : s.Disciplined) (hv : s.cfg.viterbi = false) : s.flushSum.Disciplined := by
  unfold Belief.flushSum
  extract_lets shifted aXy aT passes diffused
  have hshifted : shifted.Disciplined ∧ shifted.cfg = s.cfg := by
    unfold shifted
    split
    · exact ⟨h.dropPending.shiftScatter hv _ _, rfl⟩
    · exact ⟨h.dropPending, rfl⟩
  have hpass : ∀ (xs : List Nat) (s' : Belief K), s'.Disciplined ∧ s'.cfg = s.cfg →
      (xs.foldl (fun s _ => s.diffuseScatter (aXy / (passes : Nat)) (aT / (passes : Nat))) s').Disciplined := by
    intro xs
    induction xs with
    | nil => exact fun s' h => h.1
    | cons x xs ih =>
      intro s' hs'
      exact ih _ ⟨hs'.1.diffuseScatter (by rw [hs'.2]; exact hv) _ _, hs'.2⟩
  have hdiffused : diffused.Disciplined := by
    unfold diffused
    split
    · exact hpass _ _ hshifted
    · exact hshifted.1
  split
  · exact h.dropPending
  · exact hdiffused.normalizeActive.recomputeEss

/-- The shift of the min-plus mode leaves the belief alone and the scratch buffer dirty. -/
theorem minplusShift (h : s.Disciplined) (hv : s.cfg.viterbi = true) (pf ptDeg : K) :
    (s.minplusShift pf ptDeg).Disciplined := by
  refine ⟨h.supports, h.inside, fun hmem => absurd List.mem_cons_self hmem, fun _ => hv,
    fun e he hre => ?_, fun hord e he => ?_, h.ratio, h.turns⟩
  · rcases List.mem_cons.mp he with rfl | he
    · cases hre
    · exact h.matched e he hre
  rcases List.mem_cons.mp he with rfl | he
  · trivial
  · exact h.sound (List.pairwise_cons.mp hord).2 e he

theorem flush (h : s.Disciplined) : s.flush.Disciplined := by
  unfold Belief.flush
  split
  · next hv =>
    have hshifted : (if s.Shifts then s.dropPending.minplusShift s.pendF s.pendRotDeg
        else s.dropPending).Disciplined := by
      split
      · exact h.dropPending.minplusShift hv _ _
      · exact h.dropPending
    exact hshifted
  · next hv => exact h.flushSum (Bool.eq_false_iff.mpr hv)

end Transport

section Resets
variable [Analytic K]

theorem seed (h : s.Disciplined) (pose : PoseView K) : (s.seed pose).Disciplined := by
  have hweight : ∀ {p : Pos} {w : K}, s.seedWeight pose p = some w → s.freeAt p = true ∧ 0 < w := by
    intro p w hw
    unfold seedWeight at hw
    simp only at hw
    split at hw
    · split at hw
      · next hpos =>
        obtain rfl := Option.some.inj hw
        exact hpos
      · cases hw
    · cases hw
  have hcells : ∀ p ∈ s.dims.planes.filter fun p => (s.seedWeight pose p).isSome,
      s.openPose p = true ∧ 0 < (s.seedWeight pose p).getD 0 := by
    intro p hp
    obtain ⟨hmem, hsome⟩ := List.mem_filter.mp hp
    obtain ⟨w, hw⟩ := Option.isSome_iff_exists.mp hsome
    obtain ⟨hfree, hpos⟩ := hweight hw
    refine ⟨?_, by rw [hw]; exact hpos⟩
    exact mem_freePoses.mp (List.mem_filter.mpr ⟨hmem, hfree⟩)
  have hfill := h.fill (s.dims.nodup_planes.filter _) (fun p hp => (hcells p hp).1)
    (f := fun p _ => (s.seedWeight pose p).getD 0) fun p hp => (hcells p hp).2
  exact hfill.normalizeActive.enterMode

theorem enterUniformFree (h : s.Disciplined) : s.enterUniformFree.Disciplined := by
  have hfill := h.fill nodup_freePoses (fun p hp => mem_freePoses.mp hp)
    (f := fun _ _ => 1) fun _ _ => one_pos
  exact hfill.normalizeActive.enterMode

theorem enterLostEmpty (h : s.Disciplined) : s.enterLostEmpty.Disciplined := h.clearActive

theorem failProbation (h : s.Disciplined) : s.failProbation.Disciplined := by
  unfold Belief.failProbation
  split
  · exact h.enterLostEmpty
  · exact h.enterUniformFree

theorem ensureInitialized (h : s.Disciplined) : s.ensureInitialized.Disciplined := by
  unfold Belief.ensureInitialized
  split
  · exact h
  · exact h.failProbation

theorem active_free (h : s.Disciplined) : ∀ p ∈ s.active, p ∈ s.freePoses :=
  fun p hp => mem_freePoses.mpr (h.active_open p hp)

theorem mixUniform (h : s.Disciplined) (hexp : ∀ x : K, 0 < Analytic.exp x) :
    s.mixUniform.Disciplined := by
  unfold Belief.mixUniform
  split
  · exact h
  · next hfree =>
    split
    · split
      · exact h
      · refine Disciplined.normalizeActive (s := { s with
          delta := Sparse.modify _ s.freePoses s.delta
          b := Sparse.modify _ s.freePoses s.b
          active := s.freePoses }) ?_
        exact h.rewrite nodup_freePoses (fun p hp => mem_freePoses.mp hp) h.active_free
          fun p _ => hexp _
    · have hhalf : (0 : K) < 1 - resetMix := by
        unfold resetMix
        norm_num
      have hhalved := h.rewrite h.supported.nodup h.active_open (fun _ hp => hp)
        (f := fun _ w => w * (1 - resetMix)) fun p hp => mul_pos (h.supported.pos p hp) hhalf
      refine hhalved.rewrite nodup_freePoses (fun p hp => mem_freePoses.mp hp) h.active_free ?_
      intro p _
      have hcount : 0 < s.poseCount := Nat.mul_pos (Nat.pos_of_ne_zero hfree) h.turns
      have hshare : (0 : K) < uniformShare s.poseCount := by
        unfold uniformShare resetMix
        positivity
      exact add_pos_of_nonneg_of_pos (hhalved.supported.nonneg p) hshare

end Resets

section Weighing
variable [Analytic K]

theorem sumObserve (h : s.Disciplined) (lut : Option (Lut K)) (beams : List (K × K)) :
    (s.sumObserve lut beams).1.Disciplined := by
  unfold Belief.sumObserve
  extract_lets seen quality r thr kept
  have hweighed : Sparse.Lists r.1 r.2 := by
    apply h.supported.toLists.retain
    intro p hp hdrop
    have hpos := h.supported.pos p hp
    unfold weighCell at hdrop ⊢
    rw [if_neg (not_le.mpr hpos)] at hdrop ⊢
    split at hdrop
    · cases hdrop
    · next hfree => rw [if_neg hfree]
  have hthr : 0 ≤ thr := mul_nonneg (le_foldl_max _ 0).1 h.ratio
  have hkept : Sparse.Supports kept.1 kept.2 := hweighed.prune hthr
  refine (h.withBelief hkept fun p hp => h.active_open p ?_).normalizeActive
  exact Sparse.mem_of_mem_retain h.supported.toLists (Sparse.mem_of_mem_retain hweighed hp)

/-- Costs that are finite on open poses only give back a histogram on open poses. -/
theorem materialize (h : s.Disciplined) (hexp : ∀ x : K, 0 < Analytic.exp x)
    {delta : Pos → WithTop K}
    (hdelta : ∀ p, s.dims.Contains p → delta p ≠ ⊤ → s.freeAt p = true) :
    (s.materialize delta).Disciplined := by
  have houtside : ∀ p, ¬ s.dims.Contains p → s.b p = 0 := by
    intro p hp
    apply h.supported.zero p
    intro hmem
    have hopen := h.active_open p hmem
    unfold openPose at hopen
    rw [Bool.and_eq_true, decide_eq_true_eq] at hopen
    exact hp hopen.1
  unfold Belief.materialize
  split
  · next dmin _ =>
    extract_lets w
    have hw : ∀ p, w p = 0 ∨ 0 < w p ∧ delta p ≠ ⊤ := by
      intro p
      unfold w
      split
      · next d hd =>
        refine Or.inr ⟨hexp _, ?_⟩
        rw [hd]
        exact WithTop.coe_ne_top
      · exact Or.inl rfl
    refine h.withBelief ⟨⟨s.dims.nodup_planes.filter _, fun p hp => ?_⟩, fun p hp => ?_⟩ fun p hp => ?_
    · split
      · next hin =>
        rcases hw p with hz | ⟨hpos, _⟩
        · exact hz
        · exact absurd (List.mem_filter.mpr ⟨Dims.mem_planes.mpr hin, decide_eq_true hpos⟩) hp
      · next hout => exact houtside p hout
    · obtain ⟨hin, hpos⟩ := List.mem_filter.mp hp
      rw [if_pos (Dims.mem_planes.mp hin)]
      exact of_decide_eq_true hpos
    · obtain ⟨hin, hpos⟩ := List.mem_filter.mp hp
      rcases hw p with hz | ⟨_, htop⟩
      · exact absurd hz (of_decide_eq_true hpos).ne'
      · apply mem_freePoses.mp
        exact List.mem_filter.mpr ⟨hin, hdelta p (Dims.mem_planes.mp hin) htop⟩
  · refine h.withBelief ⟨⟨nodup_freePoses, fun p hp => ?_⟩, fun p hp => ?_⟩ fun p hp => mem_freePoses.mp hp
    · split
      · next hin =>
        apply if_neg
        exact fun hfree => hp (List.mem_filter.mpr ⟨Dims.mem_planes.mpr hin, hfree⟩)
      · next hout => exact houtside p hout
    · obtain ⟨hin, hfree⟩ := List.mem_filter.mp hp
      rw [if_pos (Dims.mem_planes.mp hin), if_pos hfree]
      exact one_pos

theorem vitObserve (h : s.Disciplined) (hexp : ∀ x : K, 0 < Analytic.exp x)
    (lut : Option (Lut K)) (beams : List (K × K)) : (s.vitObserve lut beams).1.Disciplined := by
  refine (h.materialize hexp fun p hin htop => ?_).normalizeActive
  rw [if_pos hin] at htop
  by_cases hkept : near (s.minDelta s.delta) (max (-Analytic.ln (max s.cfg.weightSkipRatio (1 / 10 ^ 30)))
      s.resetFloorLn) (s.delta p) ∧ s.freeAt p = true
  · exact hkept.2
  · rw [if_neg hkept] at htop
    exact absurd rfl htop

theorem weigh (h : s.Disciplined) (hexp : ∀ x : K, 0 < Analytic.exp x) (wasLost : Bool)
    (beams : List (K × K)) : (s.weigh wasLost beams).Disciplined := by
  have hr : ∀ lut, (if s.cfg.viterbi then s.vitObserve lut beams
      else s.sumObserve lut beams).1.Disciplined := by
    intro lut
    split
    · exact h.vitObserve hexp lut beams
    · exact h.sumObserve lut beams
  exact hr _

end Weighing

section Reseeding

/-- What a reseed collects lies on open poses. -/
theorem mem_blob_open (h : s.Disciplined) {cand : K × Pos} {d : Pos × K} (hd : d ∈ s.blob cand) :
    s.openPose d.1 = true := by
  unfold blob at hd
  obtain ⟨⟨dt, wt⟩, _, hd⟩ := List.mem_flatMap.mp hd
  obtain ⟨⟨dy, wy⟩, _, hd⟩ := List.mem_flatMap.mp hd
  obtain ⟨⟨dx, wx⟩, _, hd⟩ := List.mem_filterMap.mp hd
  obtain ⟨q, hq, rfl⟩ := Option.map_eq_some_iff.mp hd
  exact (openPose_of_openAt (h.heading_emod _) hq).1

/-- The middle of a blob is the candidate itself. -/
theorem self_mem_blob {cand : K × Pos} (hopen : s.openPose cand.2 = true) :
    (cand.2, cand.1 * 1 * 1 * 1) ∈ s.blob cand := by
  have hit := heading_of_openPose hopen
  have hturn : (cand.2.it + 0 + s.dims.nt) % s.dims.nt = cand.2.it := by
    rw [add_zero, Int.add_emod_right, Int.emod_eq_of_lt hit.1 hit.2]
  have hself : s.openAt (cand.2.ix + 0) (cand.2.iy + 0) cand.2.it = some cand.2 := by
    unfold openPose at hopen
    rw [Bool.and_eq_true, decide_eq_true_eq] at hopen
    obtain ⟨⟨hx, hy, _⟩, hfree⟩ := hopen
    unfold openAt
    rw [add_zero, add_zero, if_neg (by omega), if_pos hfree]
  unfold blob
  refine List.mem_flatMap.mpr ⟨(0, 1), by simp [blobAxis], ?_⟩
  refine List.mem_flatMap.mpr ⟨(0, 1), by simp [blobAxis], ?_⟩
  refine List.mem_filterMap.mpr ⟨(0, 1), by simp [blobAxis], ?_⟩
  simp only
  rw [hturn, hself]
  rfl

/-- Adding collected candidates keeps the histogram in order, lists each of them and puts
their scratch entries back to zero. -/
theorem mixCandidates (h : s.Disciplined) {r : (Pos → WithTop K) × List Pos}
    (hr : Sparse.Collected r) :
    Sparse.Supports (s.mixCandidates r).b (s.mixCandidates r).active ∧
      (∀ p, p ∈ (s.mixCandidates r).active ↔ p ∈ s.active ∨ p ∈ r.2) ∧
      ∀ p, (s.mixCandidates r).scratch p = if p ∈ r.2 then 0 else r.1 p := by
  unfold Belief.mixCandidates
  extract_lets newMax oldMax b m
  split
  · next hnew =>
    have hb : Sparse.Supports b s.active := by
      unfold b
      split
      · next hold =>
        exact h.supported.rewrite h.supported.nodup (fun _ hp => hp) fun p hp =>
          mul_pos (h.supported.pos p hp) (div_pos hnew hold)
      · exact h.supported
    obtain ⟨hsup, hscratch, hmem⟩ := hb.merge hr
    exact ⟨hsup, hmem, hscratch⟩
  · next hnew =>
    have hempty : ∀ p, p ∉ r.2 := by
      intro p hp
      obtain ⟨x, hx, hval⟩ := hr.pos p hp
      have hle : (r.1 p).untopD 0 ≤ newMax :=
        (le_foldl_max _ 0).2 _ (List.mem_map.mpr ⟨p, hp, rfl⟩)
      rw [hval] at hle
      exact hnew (hx.trans_le hle)
    refine ⟨h.supported, fun p => ?_, fun p => ?_⟩
    · exact ⟨Or.inl, fun hp => hp.resolve_right (hempty p)⟩
    · rw [if_neg (hempty p)]
      exact Sparse.modify_of_not_mem (fun _ _ => 0) (hempty p) r.1

variable [Analytic K]

/-- Entering a mode writes `delta` alone. -/
theorem buffers_enterMode (s : Belief K) : s.enterMode.buffers = s.buffers := by
  unfold Belief.enterMode
  split
  · rfl
  · rfl

theorem buffers_mixCandidates (s : Belief K) (r : (Pos → WithTop K) × List Pos) :
    (s.mixCandidates r).buffers = { s.buffers with
      b := (s.mixCandidates r).b
      active := (s.mixCandidates r).active
      scratch := (s.mixCandidates r).scratch } := by
  unfold Belief.mixCandidates
  extract_lets newMax oldMax b m
  split
  · rfl
  · rfl

/-- What a reseed does to the buffers. -/
theorem buffers_reseedWith (s : Belief K) (cands : List (K × Pos)) :
    let m := s.mixCandidates ((cands.flatMap s.blob).foldl Sparse.deposit (s.scratch, []))
    (s.reseedWith cands).buffers = { s.buffers with
      b := Sparse.normalize m.active m.b
      active := m.active
      scratch := m.scratch
      trace := .reseed s.scratch cands s.openPose (Sparse.normalize m.active m.b) m.active ::
        s.trace } := by
  intro m
  have hmode := buffers_enterMode m.normalizeActive
  have hmix : m.buffers = { s.buffers with b := m.b, active := m.active, scratch := m.scratch } :=
    buffers_mixCandidates s _
  calc (s.reseedWith cands).buffers
      = { m.normalizeActive.enterMode.buffers with
          trace := .reseed s.scratch cands s.openPose m.normalizeActive.enterMode.buffers.b
            m.normalizeActive.enterMode.buffers.active :: s.trace } := rfl
    _ = { m.buffers with
          b := Sparse.normalize m.active m.b
          trace := .reseed s.scratch cands s.openPose (Sparse.normalize m.active m.b) m.active ::
            s.trace } := by rw [hmode]; rfl
    _ = _ := by rw [hmix]

theorem reseedWith (h : s.Disciplined) (hg : s.cfg.globalMatch = true) (cands : List (K × Pos)) :
    (s.reseedWith cands).Disciplined := by
  have hcol := (Sparse.Collected.start s.scratch).foldl (cands.flatMap s.blob)
  obtain ⟨hsup, hmem, hscratch⟩ := h.mixCandidates hcol
  have hopen : ∀ p ∈ ((cands.flatMap s.blob).foldl Sparse.deposit (s.scratch, [])).2,
      s.openPose p = true := by
    intro p hp
    rcases Sparse.mem_foldl_deposit hp with hp | ⟨m, hm⟩
    · exact absurd hp List.not_mem_nil
    · obtain ⟨cand, _, hcand⟩ := List.mem_flatMap.mp hm
      exact h.mem_blob_open hcand
  have hstart : Event.shift ∉ s.trace → Sparse.Clean (s.scratch, ([] : List Pos)) :=
    fun hshift p _ => h.clean hshift p
  unfold Belief.Disciplined
  rw [buffers_reseedWith]
  refine ⟨hsup.normalize, fun p hp => ?_, fun hshift p => ?_, fun hshift => ?_,
    fun _ _ _ => hg, fun hord e he => ?_, h.ratio, h.turns⟩
  · rcases (hmem p).mp hp with hp | hp
    · exact h.active_open p hp
    · exact hopen p hp
  · have hz := (hstart fun hs => hshift (List.mem_cons_of_mem _ hs)).foldl (cands.flatMap s.blob) p
    simp only
    rw [hscratch p]
    split
    · rfl
    · next hp => exact hz hp
  · rcases List.mem_cons.mp hshift with heq | hs
    · cases heq
    · exact h.mode hs
  · obtain ⟨hlater, hearlier⟩ := List.pairwise_cons.mp hord
    rcases List.mem_cons.mp he with rfl | he
    · have hshift : Event.shift ∉ s.trace := fun hs => Bool.noConfusion (hlater _ hs rfl)
      refine ⟨h.clean hshift, fun cand hcand hsc hfree => ?_⟩
      have hself := List.mem_flatMap.mpr ⟨cand, hcand, self_mem_blob hfree⟩
      have hlisted := (hstart hshift).mem_foldl (Sparse.Collected.start _) hself (by
        rwa [mul_one, mul_one, mul_one])
      have hactive := (hmem cand.2).mpr (Or.inr hlisted)
      exact ⟨hactive, hsup.normalize.pos _ hactive⟩
    · exact h.sound hearlier e he

theorem matchReseed (h : s.Disciplined) (hg : s.cfg.globalMatch = true) (beams : List (K × K)) :
    (s.matchReseed beams).Disciplined :=
  reseedWith (s := (s.matchCandidates beams none).1) h hg _

theorem rematch (h : s.Disciplined) (hg : s.cfg.globalMatch = true) (beams : List (K × K)) :
    (s.rematch beams).Disciplined := by
  unfold Belief.rematch
  split
  · exact h.matchReseed hg beams
  · next p _ =>
    exact reseedWith
      (s := ((s.matchCandidates beams (some (p.x, p.y))).1.matchCandidates beams none).1) h hg _

end Reseeding

section Observing
variable [Analytic K]

theorem tryRelease (h : s.Disciplined) : s.tryRelease.1.Disciplined := by
  unfold Belief.tryRelease
  split
  · exact h
  · split
    · exact h
    · split
      · exact h
      · extract_lets held hold
        split
        · exact h
        · exact h

theorem settle (h : s.Disciplined) (mismatched : Bool) (movedM : K) :
    (s.settle mismatched movedM).Disciplined := by
  unfold Belief.settle
  extract_lets s' r src walked checked
  have hr : r.1.Disciplined := by
    unfold r
    split
    · exact tryRelease (s := s') h
    · exact h
  split
  · exact h
  · split
    · split
      · exact hr
      · exact hr
    · split
      · split
        · split
          · exact failProbation (s := checked) hr
          · exact hr
        · exact hr
      · exact hr

theorem respond (h : s.Disciplined) (hexp : ∀ x : K, 0 < Analytic.exp x) (beams : List (K × K))
    (movedM : K) : (s.respond beams movedM).Disciplined := by
  unfold Belief.respond
  extract_lets mismatched
  split
  · split
    · next hg => exact h.matchReseed hg beams
    · exact h.enterUniformFree
  · split
    · split
      · next hg =>
        split
        · split
          · exact h.matchReseed hg beams
          · exact h.rematch hg beams
        · exact h.settle _ _
      · split
        · exact h.enterUniformFree.settle _ _
        · exact (h.mixUniform hexp).settle _ _
    · exact h.settle _ _

theorem integrate (h : s.Disciplined) (hexp : ∀ x : K, 0 < Analytic.exp x) (scan : LaserScan K) :
    (s.integrate scan).Disciplined := by
  unfold Belief.integrate
  extract_lets movedM src flushed started step beams
  have hflushed : flushed.Disciplined := h.flush
  have hstarted : started.Disciplined := by
    unfold started
    split
    · exact hflushed.enterUniformFree
    · exact hflushed
  split
  · exact hstarted
  · split
    · split
      · next hg => exact hstarted.matchReseed hg beams
      · exact hstarted
    · exact (hstarted.weigh hexp _ _).respond hexp _ _

theorem observe (h : s.Disciplined) (hexp : ∀ x : K, 0 < Analytic.exp x) (scan : LaserScan K) :
    (s.observe scan).Disciplined := by
  unfold Belief.observe
  split
  · exact h.ensureInitialized
  · exact h.ensureInitialized.integrate hexp scan

/-- A beam opens cells; none of the poses that were open closes. -/
theorem openCell (h : s.Disciplined) (wx wy : K) : (s.openCell wx wy).1.Disciplined := by
  unfold Belief.openCell
  simp only
  split
  · exact h
  · refine ⟨h.supports, fun p hp => ?_, h.clean, h.mode, h.matched, h.sound, h.ratio, h.turns⟩
    have hopen := h.active_open p hp
    unfold openPose at hopen
    rw [Bool.and_eq_true] at hopen
    simp only [buffers, openPose, Bool.and_eq_true]
    refine ⟨hopen.1, ?_⟩
    unfold freeAt at hopen ⊢
    simp only [Function.update_apply]
    split
    · rfl
    · exact hopen.2

/-- What every sample of a beam preserves, a walk along all beams preserves. -/
theorem walkBeams_preserves {σ : Type} {P : σ → Prop} {visit : σ → K → K → σ × Bool}
    (hvisit : ∀ st, P st → ∀ wx wy, P (visit st wx wy).1) (msg : LaserScan K)
    (x y t step stopBack : K) {st : σ} (hst : P st) :
    P (walkBeams msg x y t step stopBack visit st) := by
  have hbeam : ∀ (ca sa stop : K) (n : Nat) (u : K) (st : σ), P st →
      P (walkBeam visit x y ca sa step stop n u st) := by
    intro ca sa stop n
    induction n with
    | zero => exact fun _ _ h => h
    | succ n ih =>
      intro u st h
      have hone := hvisit st h (x + u * ca) (y + u * sa)
      unfold walkBeam
      simp only
      split
      · split
        · exact ih _ _ hone
        · exact hone
      · exact h
  unfold walkBeams
  generalize List.range msg.ranges.length = is
  induction is generalizing st with
  | nil => exact hst
  | cons i is ih => exact ih (hbeam _ _ _ _ _ _ hst)

theorem clearFreeFromScan (h : s.Disciplined) (scan : LaserScan K) :
    (s.clearFreeFromScan scan).Disciplined := by
  unfold Belief.clearFreeFromScan
  split
  · exact h
  · exact walkBeams_preserves (P := Disciplined) (fun st hst wx wy => openCell hst wx wy)
      _ _ _ _ _ _ h

theorem step (h : s.Disciplined) (hexp : ∀ x : K, 0 < Analytic.exp x) (op : Op K) :
    (s.step op).Disciplined := by
  cases op with
  | seed pose => exact h.seed pose
  | enterUniformFree => exact h.enterUniformFree
  | predict v wDeg dt => exact h.predict v wDeg dt
  | observe scan => exact h.observe hexp scan
  | flush => exact h.flush
  | reseed cands =>
    unfold Belief.step
    simp only
    split
    · next hg => exact h.reseedWith hg cands
    · exact h
  | failProbation => exact h.failProbation
  | clearFreeFromScan scan => exact h.clearFreeFromScan scan

theorem run (h : s.Disciplined) (hexp : ∀ x : K, 0 < Analytic.exp x) (ops : List (Op K)) :
    (s.run ops).Disciplined := by
  induction ops generalizing s with
  | nil => exact h
  | cons op ops ih => exact ih (h.step hexp op)

end Observing

/-- In the sum mode there are no shifts, and without global matching no reseeds. -/
theorem orderly (h : s.Disciplined) (hmode : s.cfg.viterbi = false ∨ s.cfg.globalMatch = false) :
    Event.Orderly s.trace := by
  have hpair : ∀ later ∈ s.trace, ∀ earlier ∈ s.trace,
      later.isReseed = true → earlier.isShift = false := by
    intro later hl earlier he hre
    rcases hmode with hv | hg
    · cases earlier with
      | shift =>
        have hmem : s.cfg.viterbi = true := h.mode he
        rw [hv] at hmem
        exact absurd hmem Bool.false_ne_true
      | scatter => rfl
      | reseed => rfl
    · have hmatch : s.cfg.globalMatch = true := h.matched later hl hre
      rw [hg] at hmatch
      exact absurd hmatch Bool.false_ne_true
  exact List.pairwise_of_forall_mem_list fun a ha b hb => hpair a ha b hb

/-- A new filter. -/
theorem new (viGrid : OccupancyGrid K) (thetaBins : Nat) (field : LikelihoodField K)
    {cfg : BeliefConfig K} (hratio : 0 ≤ cfg.weightSkipRatio) :
    (Belief.new viGrid thetaBins field cfg).Disciplined where
  supports := Sparse.Supports.of_zero fun _ => rfl
  inside _ hp := absurd hp List.not_mem_nil
  clean _ _ := rfl
  mode hmem := absurd hmem List.not_mem_nil
  matched _ he := absurd he List.not_mem_nil
  sound _ _ he := absurd he List.not_mem_nil
  ratio := hratio
  turns := Nat.lt_of_lt_of_le Nat.one_pos (Nat.le_max_right _ _)

end Disciplined

/-- In every run the list of active cells has no duplicates, holds every cell with belief,
and only free cells have belief. If no reseed of the run comes after a min-plus shift,
every deposit starts from a zero scratch buffer and no candidate of a reseed is lost. -/
theorem scratch_disciplined [IsStrictOrderedRing K] [Analytic K] (hexp : ∀ x : K, 0 < Analytic.exp x)
    (viGrid : OccupancyGrid K) (thetaBins : Nat) (field : LikelihoodField K)
    (cfg : BeliefConfig K) (hratio : 0 ≤ cfg.weightSkipRatio) (ops : List (Op K)) :
    let s := (Belief.new viGrid thetaBins field cfg).run ops
    s.active.Nodup ∧ (∀ p, s.b p ≠ 0 → p ∈ s.active) ∧
      (∀ p, s.b p ≠ 0 → s.dims.Contains p ∧ s.freeAt p = true) ∧
      (Event.Orderly s.trace → ∀ e ∈ s.trace, e.Sound) := by
  intro s
  have h : s.Disciplined := (Disciplined.new viGrid thetaBins field hratio).run hexp ops
  have hlisted : ∀ p, s.b p ≠ 0 → p ∈ s.active := fun p hp => h.supported.mem_iff.mpr hp
  refine ⟨h.supported.nodup, hlisted, fun p hp => ?_, h.sound⟩
  have hopen := h.active_open p (hlisted p hp)
  unfold openPose at hopen
  rwa [Bool.and_eq_true, decide_eq_true_eq] at hopen

end

section StaleShift

/-- Angles in degrees, and logarithms to three digits where the run below takes one. -/
abbrev degreeMath : Analytic ℚ where
  cos a := if a = 180 then -1 else 1
  sin _ := 0
  exp x := if x ≤ 0 then 1 / (1 - x) else 1 + x
  ln x := if x = 1 then 0 else if x = 2 then 693 / 1000 else if x = 1 / 20 then -2996 / 1000
    else if x = 1 / 10000 then -9210 / 1000 else x - 1
  powf x _ := x
  hypot x y := |x| + |y|
  atan2 y x := y / x
  toRadians a := a
  toDegrees a := a
  fracOneSqrtTwo := 707 / 1000
  keepBest k l := l.take k

/-- Four cells in a row, the two in the middle occupied. -/
def twoEnds : OccupancyGrid ℚ := ⟨4, 1, 1, 0, 0, [0, 100, 100, 0]⟩

def twoEndsField : LikelihoodField ℚ where
  w := 4
  h := 1
  res := 1
  ox := 0
  oy := 0
  lf c := if c.1 = 1 ∨ c.1 = 2 then 255 else 0
  dist c := if c.1 = 1 ∨ c.1 = 2 then 0 else 1
  unk _ := false
  free c := c.1 = 0 ∨ c.1 = 3

/-- The defaults, with the min-plus mode and global matching on. -/
def viterbiMatching : BeliefConfig ℚ where
  sensorSigmaM := 1 / 5
  beamStep := 10
  maxRangeM := 25
  motionSigmaXyM := 3 / 100
  motionSigmaThetaDeg := 2
  initSigmaXyM := 3 / 10
  initSigmaThetaDeg := 10
  zMin := 1 / 20
  weightSkipRatio := 1 / 10000
  resetQuality := 1 / 4
  lostEss := 500
  lostUpdateMinDM := 0
  lostUpdateMinADeg := 0
  probationObs := 0
  probationMinQ := 2 / 5
  lostSigmaPerM := 0
  globalMatch := true
  viterbi := true

def farBeam : LaserScan ℚ := ⟨0, 0, [10]⟩

theorem degreeMath_exp_pos (x : ℚ) : 0 < degreeMath.exp x := by
  show 0 < if x ≤ 0 then 1 / (1 - x) else 1 + x
  split
  · next hx => exact div_pos one_pos (by linarith)
  · next hx => linarith

/-- A filter that has run on the two ends. -/
def atTwoEnds (ops : List (Op ℚ)) : Belief ℚ :=
  @run ℚ _ _ _ degreeMath (Belief.new twoEnds 1 twoEndsField viterbiMatching) ops

/-- The first scan reseeds, and the motion that shifts comes after it. -/
theorem twoEnds_disciplined :
    (∀ p, (atTwoEnds [.observe farBeam, .predict (-3) 0 1, .flush]).b p ≠ 0 →
      p ∈ (atTwoEnds [.observe farBeam, .predict (-3) 0 1, .flush]).active) ∧
    ∀ e ∈ (atTwoEnds [.observe farBeam, .predict (-3) 0 1, .flush]).trace, e.Sound := by
  let _ : Analytic ℚ := degreeMath
  have hratio : 0 ≤ viterbiMatching.weightSkipRatio := by
    show (0 : ℚ) ≤ 1 / 10000
    norm_num
  have h := scratch_disciplined degreeMath_exp_pos twoEnds 1 twoEndsField viterbiMatching hratio
    [.observe farBeam, .predict (-3) 0 1, .flush]
  exact ⟨h.2.1, h.2.2.2 (by decide +kernel)⟩

/-- Back up by three metres between two scans: the flush shifts the peak to the other end
and leaves `⊤` where the second reseed puts its candidate, which is not listed. -/
theorem not_scratch_disciplined :
    ¬ ∀ e ∈ (atTwoEnds [.observe farBeam, .predict (-3) 0 1, .observe farBeam]).trace, e.Sound := by
  intro h
  have hlost : (atTwoEnds [.observe farBeam, .predict (-3) 0 1, .observe farBeam]).trace.map
      Event.lostPoses = [[⟨0, 0, 0⟩], [], []] := by decide +kernel
  have hnil : ∀ ps ∈ (atTwoEnds [.observe farBeam, .predict (-3) 0 1,
      .observe farBeam]).trace.map Event.lostPoses, ps = [] := by
    intro ps hps
    obtain ⟨e, he, rfl⟩ := List.mem_map.mp hps
    exact (h e he).lostPoses
  rw [hlost] at hnil
  exact List.cons_ne_nil _ _ (hnil _ List.mem_cons_self)

end StaleShift

end Belief

end ValueIteration
