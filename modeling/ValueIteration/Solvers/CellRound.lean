import ValueIteration.Solvers.CellSpec

/-!
# A parallel round on the padded grid

The candidates of a round are cells; evaluating one stores to its own headings only,
each at most once. A finished round therefore took every candidate from a mixture of
the field before and the field after it, and where no product wraps it stayed between
any two bounds that the update respects.
-/

set_option autoImplicit false

namespace ValueIteration

open Async ValueIterator

/-- The state of a cell with heading `it`. -/
def thetaPos (c : Nat × Nat) (it : Nat) : Pos := ⟨c.1, c.2, it⟩

/-- The locations of a cell. -/
def Owns (vi : ValueIterator) (c : Nat × Nat) (i : Int) : Prop :=
  ∃ it, it < vi.dims.nt ∧ i = vi.padIdx (thetaPos c it)

/-- A cell of the map. -/
def InMap (vi : ValueIterator) (c : Nat × Nat) : Prop := c.1 < vi.dims.nx ∧ c.2 < vi.dims.ny

theorem thetaPos_contains {vi : ValueIterator} {c : Nat × Nat} (hc : InMap vi c) {it : Nat}
    (hit : it < vi.dims.nt) : vi.dims.Contains (thetaPos c it) := by
  obtain ⟨h1, h2⟩ := hc
  refine ⟨⟨?_, ?_⟩, ⟨?_, ?_⟩, ?_, ?_⟩ <;> simp only [thetaPos] <;> omega

theorem thetaPos_injective {c d : Nat × Nat} {it jt : Nat} (h : thetaPos c it = thetaPos d jt) :
    c = d ∧ it = jt := by
  simp only [thetaPos, Pos.mk.injEq, Int.natCast_inj] at h
  exact ⟨Prod.ext h.1 h.2.1, h.2.2⟩

theorem eq_thetaPos {vi : ValueIterator} {s : Pos} (hs : vi.dims.Contains s) :
    s = thetaPos (s.ix.toNat, s.iy.toNat) s.it.toNat ∧ InMap vi (s.ix.toNat, s.iy.toNat) ∧
      s.it.toNat < vi.dims.nt := by
  obtain ⟨ix, iy, it⟩ := s
  obtain ⟨⟨hx0, hx⟩, ⟨hy0, hy⟩, ht0, ht⟩ := hs
  simp only at hx0 hx hy0 hy ht0 ht
  refine ⟨?_, ⟨?_, ?_⟩, ?_⟩
  · simp only [thetaPos, Pos.mk.injEq]
    omega
  all_goals simp only; omega

/-- `const BLOCK`: how many candidates a worker claims at once. -/
def claimBlock : Nat := 16

/-- One compute phase over `cands`, each cell evaluating the headings `its`. -/
def CellModel.round (m : CellModel) (vi : ValueIterator) (cands : List (Nat × Nat))
    (its : Nat × Nat → List Nat) : Round (Nat × Nat) Int Nat (List (Nat × Nat)) where
  block := claimBlock
  cands := cands
  task c := m.evalThetas vi.buildPrecomp (vi.padCol c.1 c.2) (its c)

/-- The values a padded memory stands for; off the map the start's. -/
def CellModel.field (m : CellModel) (vi : ValueIterator) (mem : Int → Nat) (p : Pos) : Nat :=
  if vi.dims.Contains p then m.before (vi.padIdx p) (mem (vi.padIdx p)) else vi.costs p

/-- The states a round evaluates. -/
def activeSet (cands : List (Nat × Nat)) (its : Nat × Nat → List Nat) : Set Pos :=
  {s | ∃ c ∈ cands, ∃ it ∈ its c, s = thetaPos c it}

namespace CellModel

section Theta
variable {m : CellModel} {vi : ValueIterator} {Proper : Int → Nat → Prop} {c : Nat × Nat}
  {P : Int → Nat → Prop} {start fin : Int → Nat}

theorem field_of_contains {mem : Int → Nat} {p : Pos} (hp : vi.dims.Contains p) :
    m.field vi mem p = m.before (vi.padIdx p) (mem (vi.padIdx p)) := if_pos hp

theorem evalTheta_disciplined {precomp : List (List (List (Int × Nat)))} {col : Int} {it : Nat}
    {own : Int → Prop} {post : Set Int → Option Nat → Prop} {W : Set Int} (hown : own (col + it))
    (hfresh : col + it ∉ W) (hsame : ∀ a, post W a) (hins : ∀ a, post (insert (col + it) W) a) :
    (m.evalTheta precomp col it).Disciplined own post W := by
  intro h
  refine Prog.disciplined_bind.mpr ((thetaCost_readOnly _ _ _).disciplined ?_)
  intro v
  split
  · exact ⟨hown, hfresh, hins _⟩
  · exact hsame _

theorem evalThetas_disciplined (hc : InMap vi c) {precomp : List (List (List (Int × Nat)))}
    (its : List Nat) : its.Nodup → (∀ it ∈ its, it < vi.dims.nt) → ∀ W : Set Int,
      (∀ it ∈ its, vi.padIdx (thetaPos c it) ∉ W) →
      (m.evalThetas precomp (vi.padCol c.1 c.2) its).Disciplined (Owns vi c) (fun _ _ => True) W := by
  induction its with
  | nil => intro _ _ W _; trivial
  | cons it its ih =>
    intro hnodup hlt W hW
    obtain ⟨hnot, hnodup⟩ := List.nodup_cons.mp hnodup
    have hrest := ih hnodup fun jt hj => hlt jt (List.mem_cons_of_mem _ hj)
    have hWrest : ∀ jt ∈ its, vi.padIdx (thetaPos c jt) ∉ W :=
      fun jt hj => hW jt (List.mem_cons_of_mem _ hj)
    have hit := hlt it List.mem_cons_self
    unfold evalThetas
    split
    · exact hrest W hWrest
    refine Prog.disciplined_bind.mpr (evalTheta_disciplined ⟨it, hit, rfl⟩
      (hW it List.mem_cons_self) ?_ ?_)
    · intro a
      exact Prog.disciplined_bind.mpr ((hrest W hWrest).mono fun _ _ _ => trivial)
    · intro a
      refine Prog.disciplined_bind.mpr ((hrest _ ?_).mono fun _ _ _ => trivial)
      rintro jt hj (heq | hmem)
      · have hjt := hlt jt (List.mem_cons_of_mem _ hj)
        have hpos := padIdx_injective (onPad_of_contains (thetaPos_contains hc hjt))
          (onPad_of_contains (thetaPos_contains hc hit)) heq
        exact hnot ((thetaPos_injective hpos).2 ▸ hj)
      · exact hWrest jt hj hmem

theorem thetaCost_backs (fin : Int → Nat) (hm : m.Models vi Proper) {P : Int → Nat → Prop}
    (hP : ∀ i h, P i h → Proper i h) (hc : InMap vi c) {it : Nat} (hit : it < vi.dims.nt) :
    (m.thetaCost vi.buildPrecomp (vi.padCol c.1 c.2) it).Keeps fin P fun v =>
      ∃ r, vi.world.Backs (fun t v => ∃ h, P (vi.padIdx t) h ∧ v = m.before (vi.padIdx t) h)
        (thetaPos c it) r ∧ r.1 = v := by
  have h := thetaCost_keeps fin hm hP
    (Q := fun t v => ∃ h, P (vi.padIdx t) h ∧ v = m.before (vi.padIdx t) h)
    (fun t _ _ h hPh => ⟨h, hPh, rfl⟩) (thetaPos_contains hc hit)
  simpa [thetaPos] using h

/-- What one evaluated heading computed from words of the round's start and end. -/
def Computed (m : CellModel) (vi : ValueIterator) (start fin : Int → Nat) (s : Pos) (v : Nat) :
    Prop :=
  ∀ (P : Int → Nat → Prop) (Q : Nat → Prop), (∀ i, P i (start i)) → (∀ i, P i (fin i)) →
    (m.thetaCost vi.buildPrecomp (vi.padCol s.ix s.iy) s.it.toNat).Keeps fin P Q → Q v

/-- Where the words are proper that is a value the update may return. -/
theorem Computed.backs (hm : m.Models vi Proper) (hstart : ∀ i, Proper i (start i))
    (hfin : ∀ i, Proper i (fin i)) {s : Pos} {v : Nat} (hs : vi.dims.Contains s)
    (h : Computed m vi start fin s v) :
    ∃ r, vi.world.Backs (fun t v => v = m.before (vi.padIdx t) (start (vi.padIdx t)) ∨
      v = m.before (vi.padIdx t) (fin (vi.padIdx t))) s r ∧ r.1 = v := by
  have hkeeps := thetaCost_keeps fin hm (P := fun i h => h = start i ∨ h = fin i)
    (Q := fun t v => v = m.before (vi.padIdx t) (start (vi.padIdx t)) ∨
      v = m.before (vi.padIdx t) (fin (vi.padIdx t)))
    (by
      rintro i h (rfl | rfl)
      · exact hstart i
      · exact hfin i)
    (by
      rintro t _ _ h (rfl | rfl)
      · exact Or.inl rfl
      · exact Or.inr rfl) hs
  exact h _ _ (fun _ => Or.inl rfl) (fun _ => Or.inr rfl) hkeeps

/-- A heading reads its own value as it was before the round. -/
theorem evalTheta_runs {it : Nat} (hit : it < vi.dims.nt) {W W' : Set Int}
    (hfresh : vi.padIdx (thetaPos c it) ∉ W) {moved : Option Nat} (h : (m.evalTheta vi.buildPrecomp (vi.padCol c.1 c.2) it).Runs
      (Owns vi c) start fin W moved W') :
    ∃ v, CostValue v ∧ Computed m vi start fin (thetaPos c it) v ∧
      let i := vi.padIdx (thetaPos c it)
      ((moved = none ∧ W' = W ∧ v = m.before i (start i)) ∨
        (moved = some v ∧ W' = insert i W ∧ fin i = m.after i v ∧ v ≠ m.before i (start i))) := by
  obtain ⟨h, hread, hrun⟩ := h
  obtain ⟨v, W₁, hcost, hrest⟩ := Prog.runs_bind.mp hrun
  obtain rfl := (thetaCost_readOnly _ _ _).runs hcost
  have hbefore : h = start (vi.padIdx (thetaPos c it)) := by
    rcases hread with hh | ⟨_, hown⟩
    · exact hh
    · exact absurd (hown ⟨it, hit, rfl⟩) hfresh
  subst hbefore
  refine ⟨v, ?_, ?_, ?_⟩
  · have hvalue : (m.thetaCost vi.buildPrecomp (vi.padCol c.1 c.2) it).Keeps fin (fun _ _ => True)
        CostValue := thetaCost_value _ _ _
    exact hvalue.runs (fun _ => trivial) (fun _ => trivial) hcost
  · intro P Q hs hf hkeeps
    exact Prog.Keeps.runs (P := P) hs hf hkeeps hcost
  · split at hrest
    · next hne =>
      obtain ⟨hst, heq, hW⟩ := hrest
      exact Or.inr ⟨heq.symm, hW.symm, hst, hne⟩
    · next heq =>
      rw [not_not] at heq
      exact Or.inl ⟨hrest.1.symm, hrest.2.symm, heq⟩

/-- What the moves of a cell say about the round. -/
structure Moves (m : CellModel) (vi : ValueIterator) (start fin : Int → Nat) (c : Nat × Nat)
    (its : List Nat) (moves : List (Nat × Nat)) : Prop where
  moved : ∀ e ∈ moves, e.1 ∈ its ∧ vi.world.evaluable (thetaPos c e.1) = true ∧
    CostValue e.2 ∧ fin (vi.padIdx (thetaPos c e.1)) = m.after (vi.padIdx (thetaPos c e.1)) e.2 ∧
    e.2 ≠ m.before (vi.padIdx (thetaPos c e.1)) (start (vi.padIdx (thetaPos c e.1))) ∧
    Computed m vi start fin (thetaPos c e.1) e.2
  unmoved : ∀ it ∈ its, vi.world.evaluable (thetaPos c it) = true → (∀ e ∈ moves, e.1 ≠ it) →
    Computed m vi start fin (thetaPos c it)
      (m.before (vi.padIdx (thetaPos c it)) (start (vi.padIdx (thetaPos c it))))

theorem evalThetas_runs (hm : m.Models vi Proper) (hc : InMap vi c) (its : List Nat) :
    ∀ {W W' : Set Int} {moves : List (Nat × Nat)}, its.Nodup → (∀ it ∈ its, it < vi.dims.nt) →
      (∀ it ∈ its, vi.padIdx (thetaPos c it) ∉ W) →
      (m.evalThetas vi.buildPrecomp (vi.padCol c.1 c.2) its).Runs (Owns vi c) start fin W moves W' →
      Moves m vi start fin c its moves ∧
        ∀ i ∈ W', i ∈ W ∨ ∃ e ∈ moves, i = vi.padIdx (thetaPos c e.1) := by
  induction its with
  | nil =>
    rintro W W' moves _ _ _ ⟨rfl, rfl⟩
    refine ⟨⟨?_, ?_⟩, fun i hi => Or.inl hi⟩
    · intro e he
      cases he
    · intro it hit
      cases hit
  | cons it its ih =>
    intro W W' moves hnodup hlt hW hrun
    obtain ⟨hnot, hnodup⟩ := List.nodup_cons.mp hnodup
    have hltrest : ∀ jt ∈ its, jt < vi.dims.nt := fun jt hj => hlt jt (List.mem_cons_of_mem _ hj)
    have hWrest : ∀ jt ∈ its, vi.padIdx (thetaPos c jt) ∉ W :=
      fun jt hj => hW jt (List.mem_cons_of_mem _ hj)
    have hit := hlt it List.mem_cons_self
    have hcon := thetaPos_contains hc hit
    have hskip : m.skip (vi.padCol c.1 c.2 + it) = !vi.world.evaluable (thetaPos c it) :=
      hm.skip_eq _ hcon
    unfold evalThetas at hrun
    rw [hskip] at hrun
    by_cases hev : vi.world.evaluable (thetaPos c it) = true
    · rw [hev] at hrun
      obtain ⟨moved, W₁, hone, hrun⟩ := Prog.runs_bind.mp hrun
      obtain ⟨rest, W₂, hmany, hret⟩ := Prog.runs_bind.mp hrun
      obtain ⟨hmoves, rfl⟩ := hret
      obtain ⟨v, hcost, hcomp, hcase⟩ := evalTheta_runs hit (hW it List.mem_cons_self) hone
      rcases hcase with ⟨rfl, rfl, rfl⟩ | ⟨rfl, rfl, hfinal, hne⟩
      · obtain ⟨hspec, hset⟩ := ih hnodup hltrest hWrest hmany
        simp only at hmoves
        subst hmoves
        refine ⟨⟨?_, ?_⟩, hset⟩
        · intro e he
          obtain ⟨h1, h2⟩ := hspec.moved e he
          exact ⟨List.mem_cons_of_mem _ h1, h2⟩
        · intro jt hj hevj hnone
          rcases List.mem_cons.mp hj with rfl | hj
          · exact hcomp
          · exact hspec.unmoved jt hj hevj hnone
      · have hWins : ∀ jt ∈ its,
            vi.padIdx (thetaPos c jt) ∉ insert (vi.padIdx (thetaPos c it)) W := by
          rintro jt hj (heq | hmem)
          · have hpos := padIdx_injective
              (onPad_of_contains (thetaPos_contains hc (hltrest jt hj)))
              (onPad_of_contains hcon) heq
            exact hnot ((thetaPos_injective hpos).2 ▸ hj)
          · exact hWrest jt hj hmem
        obtain ⟨hspec, hset⟩ := ih hnodup hltrest hWins hmany
        simp only at hmoves
        subst hmoves
        refine ⟨⟨?_, ?_⟩, ?_⟩
        · intro e he
          rcases List.mem_cons.mp he with rfl | he
          · exact ⟨List.mem_cons_self, hev, hcost, hfinal, hne, hcomp⟩
          · obtain ⟨h1, h2⟩ := hspec.moved e he
            exact ⟨List.mem_cons_of_mem _ h1, h2⟩
        · intro jt hj hevj hnone
          rcases List.mem_cons.mp hj with rfl | hj
          · exact absurd rfl (hnone _ List.mem_cons_self)
          · exact hspec.unmoved jt hj hevj fun e he => hnone e (List.mem_cons_of_mem _ he)
        · intro i hi
          rcases hset i hi with (rfl | hmem) | ⟨e, he, rfl⟩
          · exact Or.inr ⟨_, List.mem_cons_self, rfl⟩
          · exact Or.inl hmem
          · exact Or.inr ⟨e, List.mem_cons_of_mem _ he, rfl⟩
    · rw [Bool.not_eq_true] at hev
      rw [hev] at hrun
      obtain ⟨hspec, hset⟩ := ih hnodup hltrest hWrest hrun
      refine ⟨⟨?_, ?_⟩, hset⟩
      · intro e he
        obtain ⟨h1, h2⟩ := hspec.moved e he
        exact ⟨List.mem_cons_of_mem _ h1, h2⟩
      · intro jt hj hevj hnone
        rcases List.mem_cons.mp hj with rfl | hj
        · rw [hev] at hevj
          cases hevj
        · exact hspec.unmoved jt hj hevj hnone

/-- Stored words satisfy `P` when every word that a computed value may store does. -/
theorem evalThetas_stores (hm : m.Models vi Proper) (hc : InMap vi c) {R : Nat → Nat → Prop}
    (its : List Nat) : (∀ it ∈ its, it < vi.dims.nt) →
    (∀ it ∈ its, vi.world.evaluable (thetaPos c it) = true →
      (m.thetaCost vi.buildPrecomp (vi.padCol c.1 c.2) it).Keeps fin P (R it)) →
    (∀ it ∈ its, vi.world.evaluable (thetaPos c it) = true → ∀ h v,
      let i := vi.padIdx (thetaPos c it)
      P i h → R it v → v ≠ m.before i h → fin i = m.after i v → P i (m.after i v)) →
      (m.evalThetas vi.buildPrecomp (vi.padCol c.1 c.2) its).Keeps fin P fun _ => True := by
  induction its with
  | nil => intro _ _ _; trivial
  | cons it its ih =>
    intro hlt hcost hstore
    have hit := hlt it List.mem_cons_self
    have hskip : m.skip (vi.padCol c.1 c.2 + it) = !vi.world.evaluable (thetaPos c it) :=
      hm.skip_eq _ (thetaPos_contains hc hit)
    have hrest := ih (fun jt hj => hlt jt (List.mem_cons_of_mem _ hj))
      (fun jt hj => hcost jt (List.mem_cons_of_mem _ hj))
      fun jt hj => hstore jt (List.mem_cons_of_mem _ hj)
    unfold evalThetas
    rw [hskip]
    by_cases hev : vi.world.evaluable (thetaPos c it) = true
    · rw [hev]
      refine Prog.keeps_bind.mpr ?_
      intro h hPh
      refine Prog.keeps_bind.mpr ((hcost it List.mem_cons_self hev).mono ?_)
      intro v hv
      have hcont : ∀ f : List (Nat × Nat) → List (Nat × Nat),
          ((m.evalThetas vi.buildPrecomp (vi.padCol c.1 c.2) its).bind
            fun moves => .ret (f moves)).Keeps fin P fun _ => True :=
        fun f => Prog.keeps_bind.mpr (hrest.mono fun _ _ => trivial)
      split
      · next hne =>
        intro hfin
        exact ⟨hstore it List.mem_cons_self hev h v hPh hv hne hfin, hcont _⟩
      · exact hcont _
    · rw [Bool.not_eq_true] at hev
      rw [hev]
      exact hrest

/-- Stored words satisfy `P` when every word the update may store does. -/
theorem evalThetas_keeps (hm : m.Models vi Proper) (hP : ∀ i h, P i h → Proper i h)
    (hc : InMap vi c) (its : List Nat) (hlt : ∀ it ∈ its, it < vi.dims.nt)
    (hstore : ∀ it ∈ its, vi.world.evaluable (thetaPos c it) = true → ∀ h r,
      let i := vi.padIdx (thetaPos c it)
      P i h → vi.world.Backs (fun t v => ∃ h, P (vi.padIdx t) h ∧ v = m.before (vi.padIdx t) h)
        (thetaPos c it) r → r.1 ≠ m.before i h → fin i = m.after i r.1 → P i (m.after i r.1)) :
    (m.evalThetas vi.buildPrecomp (vi.padCol c.1 c.2) its).Keeps fin P fun _ => True := by
  apply evalThetas_stores hm hc its hlt
  · intro it hit _
    exact thetaCost_backs fin hm hP hc (hlt it hit)
  · rintro it hit hev h v _ hPh ⟨r, hr, rfl⟩ hne hfin
    exact hstore it hit hev h r hPh hr hne hfin

end Theta

/-- Candidates are distinct cells of the map and headings distinct headings. -/
structure Candidates (vi : ValueIterator) (cands : List (Nat × Nat))
    (its : Nat × Nat → List Nat) : Prop where
  nodup : cands.Nodup
  inMap : ∀ c ∈ cands, InMap vi c
  headings : ∀ c ∈ cands, (its c).Nodup ∧ ∀ it ∈ its c, it < vi.dims.nt

section Run
variable {m : CellModel} {vi : ValueIterator} {Proper : Int → Nat → Prop}
  {cands : List (Nat × Nat)} {its : Nat × Nat → List Nat} {mem fin : Int → Nat}
  {logs : List (List ((Nat × Nat) × List (Nat × Nat)))} {nthreads : Nat}
  {sched : List (Nat × Bool)}

theorem Candidates.lawful (h : Candidates vi cands its) :
    (m.round vi cands its).Lawful (Owns vi) where
  block_pos := (by decide : 0 < claimBlock)
  nodup := h.nodup
  disjoint := by
    rintro c hc d hd i ⟨it, hit, rfl⟩ ⟨jt, hjt, heq⟩
    have hpos := padIdx_injective (onPad_of_contains (thetaPos_contains (h.inMap c hc) hit))
      (onPad_of_contains (thetaPos_contains (h.inMap d hd) hjt)) heq
    exact (thetaPos_injective hpos).1
  disciplined := by
    intro c hc
    exact evalThetas_disciplined (h.inMap c hc) _ (h.headings c hc).1 (h.headings c hc).2 ∅
      fun _ _ hmem => hmem

/-- The candidates' moves, and that nothing else was written. -/
theorem round_moves (hm : m.Models vi Proper) (hcand : Candidates vi cands its)
    (hn : 0 < nthreads)
    (hrun : (m.round vi cands its).run nthreads mem sched = some (fin, logs)) :
    (∀ c moves, (c, moves) ∈ logs.flatten →
      c ∈ cands ∧ Moves m vi mem fin c (its c) moves) ∧
    (∀ c ∈ cands, ∃ moves, (c, moves) ∈ logs.flatten) ∧
    ∀ p, vi.dims.Contains p → (∀ c moves, (c, moves) ∈ logs.flatten → ∀ e ∈ moves,
      p ≠ thetaPos c e.1) → fin (vi.padIdx p) = mem (vi.padIdx p) := by
  have hdone := Round.run_done hcand.lawful hn hrun
  have hmem : ∀ c moves, (c, moves) ∈ logs.flatten → c ∈ cands := by
    intro c moves h
    exact hdone.once.mem_iff.mp (List.mem_map_of_mem h)
  have hlog : ∀ c ∈ cands, ∃ moves, (c, moves) ∈ logs.flatten := by
    intro c hc
    obtain ⟨⟨d, moves⟩, hd, rfl⟩ := List.mem_map.mp (hdone.once.mem_iff.mpr hc)
    exact ⟨moves, hd⟩
  have hspec : ∀ c moves, (c, moves) ∈ logs.flatten →
      Moves m vi mem fin c (its c) moves ∧
        ∀ i, Owns vi c i → (∀ e ∈ moves, i ≠ vi.padIdx (thetaPos c e.1)) → fin i = mem i := by
    intro c moves h
    have hc := hmem c moves h
    obtain ⟨W, hruns, hrest⟩ := hdone.ran c moves h
    obtain ⟨hmoves, hset⟩ := evalThetas_runs (W := ∅) hm (hcand.inMap c hc) _
      (hcand.headings c hc).1 (hcand.headings c hc).2 (fun _ _ hw => hw) hruns
    refine ⟨hmoves, ?_⟩
    intro i hi hnone
    refine hrest i hi ?_
    intro hiW
    rcases hset i hiW with hw | ⟨e, he, heq⟩
    · exact hw
    · exact hnone e he heq
  refine ⟨fun c moves h => ⟨hmem c moves h, (hspec c moves h).1⟩, hlog, ?_⟩
  intro p hp hnone
  obtain ⟨hpos, hin, hit⟩ := eq_thetaPos hp
  by_cases hc : (p.ix.toNat, p.iy.toNat) ∈ cands
  · obtain ⟨moves, hmoves⟩ := hlog _ hc
    refine (hspec _ moves hmoves).2 _ ⟨p.it.toNat, hit, congrArg vi.padIdx hpos⟩ ?_
    intro e he heq
    have he' := ((hspec _ moves hmoves).1.moved e he).1
    have hcon := thetaPos_contains hin ((hcand.headings _ hc).2 _ he')
    exact hnone _ moves hmoves e he
      (padIdx_injective (onPad_of_contains hp) (onPad_of_contains hcon) heq)
  · refine hdone.frame _ ?_
    rintro c hcc ⟨it, hit', heq⟩
    have hcon := thetaPos_contains (hcand.inMap c hcc) hit'
    have hpc := padIdx_injective (onPad_of_contains hp) (onPad_of_contains hcon) heq
    rw [hpos] at hpc
    exact hc ((thetaPos_injective hpc).1 ▸ hcc)

/-- Padding is not written. -/
theorem round_padding (hcand : Candidates vi cands its) (hn : 0 < nthreads)
    (hrun : (m.round vi cands its).run nthreads mem sched = some (fin, logs)) {p : Pos}
    (hp : OnPad vi p) (hout : ¬ vi.dims.Contains p) :
    fin (vi.padIdx p) = mem (vi.padIdx p) := by
  refine (Round.run_done hcand.lawful hn hrun).frame _ ?_
  rintro c hc ⟨it, hit, heq⟩
  have hcon := thetaPos_contains (hcand.inMap c hc) hit
  exact hout (padIdx_injective hp (onPad_of_contains hcon) heq ▸ hcon)

/-- Every value a round wrote fits its word. -/
def AllFit (m : CellModel) (vi : ValueIterator) (log : List ((Nat × Nat) × List (Nat × Nat))) :
    Prop :=
  ∀ c moves, (c, moves) ∈ log → ∀ e ∈ moves, m.Fits vi (thetaPos c e.1) e.2

/-- A word after a round is the one before, or the word of a fitting value of an
evaluated state. -/
theorem round_word (hm : m.Models vi Proper) (hcand : Candidates vi cands its)
    (hn : 0 < nthreads)
    (hrun : (m.round vi cands its).run nthreads mem sched = some (fin, logs))
    (hfits : m.AllFit vi logs.flatten) {p : Pos} (hp : vi.dims.Contains p) :
    fin (vi.padIdx p) = mem (vi.padIdx p) ∨ vi.world.evaluable p = true ∧
      ∃ v, v < word ∧ m.Fits vi p v ∧ fin (vi.padIdx p) = m.after (vi.padIdx p) v := by
  obtain ⟨hspec, _, hframe⟩ := round_moves hm hcand hn hrun
  by_cases h : ∃ c moves, (c, moves) ∈ logs.flatten ∧ ∃ e ∈ moves, p = thetaPos c e.1
  · obtain ⟨c, moves, hc, e, he, rfl⟩ := h
    obtain ⟨_, hev, hcost, hst, _⟩ := (hspec c moves hc).2.moved e he
    exact Or.inr ⟨hev, e.2, hcost.lt_word, hfits c moves hc e he, hst⟩
  · refine Or.inl (hframe p hp ?_)
    intro c moves hc e he heq
    exact h ⟨c, moves, hc, e, he, heq⟩

/-- A stored word stands for the value it was stored for. -/
theorem round_before_after (hm : m.Models vi Proper) (hcand : Candidates vi cands its)
    (hn : 0 < nthreads)
    (hrun : (m.round vi cands its).run nthreads mem sched = some (fin, logs))
    (hfits : m.AllFit vi logs.flatten) {p : Pos} (hp : vi.dims.Contains p) {v : Nat} (hv : v < word)
    (h : fin (vi.padIdx p) = m.after (vi.padIdx p) v) :
    fin (vi.padIdx p) = mem (vi.padIdx p) ∨
      m.Fits vi p v ∧ m.before (vi.padIdx p) (fin (vi.padIdx p)) = v := by
  rcases round_word hm hcand hn hrun hfits hp with hsame | ⟨_, u, hu, hfu, hstored⟩
  · exact Or.inl hsame
  · have huv := hm.after_injective p hp u v hu hv (hstored.symm.trans h)
    rw [huv] at hfu hu
    refine Or.inr ⟨hfu, ?_⟩
    rw [h]
    exact hfu

/-- A round in which all words are proper and all writes fit is mixed, and its moves
are the states whose value changed. -/
theorem round_mixed (hm : m.Models vi Proper) (hstart : ∀ i, Proper i (mem i))
    (hfin : ∀ i, Proper i (fin i)) (hcand : Candidates vi cands its) (hn : 0 < nthreads)
    (hrun : (m.round vi cands its).run nthreads mem sched = some (fin, logs))
    (hfits : m.AllFit vi logs.flatten) :
    vi.world.Mixed (activeSet cands its) (m.field vi mem) (m.field vi fin) ∧
    ∀ s, vi.dims.Contains s → (m.field vi fin s ≠ m.field vi mem s ↔
      ∃ c moves, (c, moves) ∈ logs.flatten ∧ ∃ e ∈ moves, s = thetaPos c e.1) := by
  obtain ⟨hspec, hlog, hframe⟩ := round_moves hm hcand hn hrun
  have hval : ∀ c moves, (c, moves) ∈ logs.flatten → ∀ e ∈ moves,
      m.field vi fin (thetaPos c e.1) = e.2 := by
    intro c moves hc e he
    obtain ⟨hcc, hmoves⟩ := hspec c moves hc
    obtain ⟨hit, _, hcost, hst, _⟩ := hmoves.moved e he
    have hcon := thetaPos_contains (hcand.inMap c hcc) ((hcand.headings c hcc).2 _ hit)
    rw [field_of_contains hcon, hst]
    exact hfits c moves hc e he
  have hbacks : ∀ {s : Pos} {v : Nat}, vi.world.evaluable s = true →
      Computed m vi mem fin s v → ∃ r, vi.world.Backs
        (fun t v => v = m.field vi mem t ∨ v = m.field vi fin t) s r ∧ r.1 = v := by
    intro s v hev h
    obtain ⟨r, hr, hrv⟩ := h.backs hm hstart hfin (evaluable_iff.mp hev).1
    refine ⟨r, hr.mono ?_, hrv⟩
    intro t ht v hv
    have hcon := (reads_inBox (evaluable_iff.mp hev).1 ht).1
    rwa [field_of_contains hcon, field_of_contains hcon]
  have hstill : ∀ s, (∀ c moves, (c, moves) ∈ logs.flatten → ∀ e ∈ moves, s ≠ thetaPos c e.1) →
      m.field vi fin s = m.field vi mem s := by
    intro s hnone
    by_cases hs : vi.dims.Contains s
    · rw [field_of_contains hs, field_of_contains hs, hframe s hs hnone]
    · rw [field, field, if_neg hs, if_neg hs]
  refine ⟨⟨?_, ?_⟩, ?_⟩
  · intro s hs
    refine hstill s ?_
    rintro c moves hc e he rfl
    obtain ⟨hcc, hmoves⟩ := hspec c moves hc
    obtain ⟨hit, hev, _⟩ := hmoves.moved e he
    exact hs ⟨hev, c, hcc, e.1, hit, rfl⟩
  · rintro s hev ⟨c, hc, it, hit, rfl⟩
    obtain ⟨moves, hmoves⟩ := hlog c hc
    obtain ⟨_, hmv⟩ := hspec c moves hmoves
    by_cases hmoved : ∃ e ∈ moves, e.1 = it
    · obtain ⟨e, he, rfl⟩ := hmoved
      obtain ⟨r, hr, hrv⟩ := hbacks hev (hmv.moved e he).2.2.2.2.2
      exact ⟨r, hr, hrv.trans (hval c moves hmoves e he).symm⟩
    · have hnone : ∀ e ∈ moves, e.1 ≠ it := fun e he heq => hmoved ⟨e, he, heq⟩
      obtain ⟨r, hr, hrv⟩ := hbacks hev (hmv.unmoved it hit hev hnone)
      refine ⟨r, hr, ?_⟩
      have hcon := (evaluable_iff.mp hev).1
      rw [hrv, ← field_of_contains hcon]
      refine (hstill _ ?_).symm
      intro d moves' hd e he heq
      obtain ⟨rfl, heq'⟩ := thetaPos_injective heq
      have hsame : moves' = moves := by
        have hnodup := (Round.run_done hcand.lawful hn hrun).once.nodup_iff.mpr hcand.nodup
        exact (List.inj_on_of_nodup_map hnodup hd hmoves rfl ▸ rfl :
          (c, moves').2 = (c, moves).2)
      exact hnone e (hsame ▸ he) heq'.symm
  · intro s hs
    constructor
    · intro hne
      by_contra hnone
      refine hne (hstill s ?_)
      intro c moves hc e he heq
      exact hnone ⟨c, moves, hc, e, he, heq⟩
    · rintro ⟨c, moves, hc, e, he, rfl⟩
      obtain ⟨_, hmv⟩ := hspec c moves hc
      rw [hval c moves hc e he, field_of_contains hs]
      exact (hmv.moved e he).2.2.2.2.1

/-- Where no product wraps, a round stays between bounds that the update respects. -/
theorem round_between (hm : m.Models vi Proper) (hstart : ∀ i, Proper i (mem i))
    (hfin : ∀ i, Proper i (fin i)) (hcand : Candidates vi cands its) (hn : 0 < nthreads)
    (hrun : (m.round vi cands its).run nthreads mem sched = some (fin, logs))
    (hfits : m.AllFit vi logs.flatten) (hnorm : vi.world.Normed) {lo hi : Pos → Nat}
    (hrange : ∀ t, vi.dims.Contains t → (vi.stateAt t).free = true →
      vi.world.InRange t (m.field vi mem t) ∧ vi.world.InRange t (m.field vi fin t))
    (hlo : ∀ s, vi.world.evaluable s = true →
      lo s ≤ (vi.world.backup vi.world.clampedExactCost lo s).1)
    (hhi : ∀ s, vi.world.evaluable s = true →
      (vi.world.backup vi.world.clampedExactCost hi s).1 ≤ hi s)
    (hin : ∀ p, vi.dims.Contains p → lo p ≤ m.field vi mem p ∧ m.field vi mem p ≤ hi p) :
    ∀ p, vi.dims.Contains p → lo p ≤ m.field vi fin p ∧ m.field vi fin p ≤ hi p := by
  let P : Int → Nat → Prop := fun i h => (h = mem i ∨ h = fin i) ∧
    ∀ p, vi.dims.Contains p → i = vi.padIdx p → lo p ≤ m.before i h ∧ m.before i h ≤ hi p
  have hP : ∀ i h, P i h → Proper i h := by
    rintro i h ⟨rfl | rfl, _⟩
    · exact hstart i
    · exact hfin i
  have hPmem : ∀ i, P i (mem i) := by
    intro i
    refine ⟨Or.inl rfl, ?_⟩
    rintro p hp rfl
    rw [← field_of_contains hp]
    exact hin p hp
  have hPfin : ∀ i, P i (fin i) := by
    refine Round.run_keeps hcand.lawful hrun ?_ hPmem
    intro c hc
    refine evalThetas_keeps hm hP (hcand.inMap c hc) _ (hcand.headings c hc).2 ?_
    intro it hit hev h r i hPh hbacks hne hstored
    have hcon := thetaPos_contains (hcand.inMap c hc) ((hcand.headings c hc).2 it hit)
    have hrlt : r.1 < word := by
      obtain ⟨cs, _, rfl⟩ := hbacks
      exact (Argmin.argminBelow_le _ _).trans_lt maxCost_lt_word
    rw [← hstored]
    rcases round_before_after hm hcand hn hrun hfits hcon hrlt hstored with hsame | ⟨_, hval⟩
    · have hmi : fin i = mem i := hsame
      rw [hmi]
      exact hPmem i
    · have hb := hbacks.bounds hnorm lo hi (by
        rintro t ht v ⟨g, ⟨hg, hbound⟩, rfl⟩
        have hct := (reads_inBox (evaluable_iff.mp hev).1 ht).1
        obtain ⟨_, _, tr, _, _, hfree, _⟩ := reads_elim ht
        refine ⟨(hbound t hct rfl).1, (hbound t hct rfl).2, ?_⟩
        have hr := hrange t hct hfree
        rw [field_of_contains hct, field_of_contains hct] at hr
        rcases hg with rfl | rfl
        · exact hr.1
        · exact hr.2)
      refine ⟨Or.inr rfl, ?_⟩
      intro p hp heq
      have hps := padIdx_injective (onPad_of_contains hp) (onPad_of_contains hcon) heq.symm
      have hval' : m.before i (fin i) = r.1 := hval
      rw [hval', hps]
      exact ⟨(hlo _ hev).trans hb.1, hb.2.trans (hhi _ hev)⟩
  intro p hp
  rw [field_of_contains hp]
  exact (hPfin (vi.padIdx p)).2 p hp rfl

end Run

end CellModel

end ValueIteration
