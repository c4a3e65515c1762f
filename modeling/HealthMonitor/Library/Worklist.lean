import Mathlib.Data.List.Perm.Subperm
import Mathlib.Data.List.Nodup

/-!
# Worklist

Work that leads to more work. Of the items that wait at most one of each key is started,
and a started item is answered, in any order, with the items that it leads to. `Reached`
is everything that the answers lead to from the first items. A worklist that never lost
an item has answered all of it when nothing waits and nothing runs.
-/

/-- What the answers lead to. -/
inductive Reached {α : Type*} (first : List α) (answers : List (α × List α)) : α → Prop
  | first {a : α} (h : a ∈ first) : Reached first answers a
  | led {a b : α} {found : List α} (h : Reached first answers a) (hmem : (a, found) ∈ answers)
      (hb : b ∈ found) : Reached first answers b

theorem Reached.mono {α : Type*} {first : List α} {log more : List (α × List α)} {a : α}
    (h : Reached first log a) (hsub : log ⊆ more) : Reached first more a := by
  induction h with
  | first h => exact .first h
  | led _ hmem hb ih => exact .led ih (hsub hmem) hb

structure Worklist (α κ : Type*) where
  waiting : List α
  running : List α
  seen : List κ
  lossy : Bool

namespace Worklist

variable {α κ : Type*} (key : α → κ)

/-- One step, with the answer it takes. An item may also be left out, and an answer may be
taken in part: both lose something. -/
inductive Step : Worklist α κ → List (α × List α) → Worklist α κ → Prop
  | skip {w : Worklist α κ} {a : α} {rest : List α} (hwaiting : w.waiting.Perm (a :: rest))
      (hseen : key a ∈ w.seen) : Step w [] { w with waiting := rest }
  | start {w : Worklist α κ} {a : α} {rest running : List α}
      (hwaiting : w.waiting.Perm (a :: rest)) (hseen : key a ∉ w.seen)
      (hrunning : running.Perm (a :: w.running)) :
      Step w [] { w with waiting := rest, running, seen := key a :: w.seen }
  | leave {w : Worklist α κ} {a : α} {rest : List α} (hwaiting : w.waiting.Perm (a :: rest)) :
      Step w [] { w with waiting := rest, seen := key a :: w.seen, lossy := true }
  | lose {w : Worklist α κ} : Step w [] { w with lossy := true }
  | answer {w : Worklist α κ} {a : α} {rest found kept waiting : List α} {lossy : Bool}
      (hrunning : w.running.Perm (a :: rest)) (hkept : kept ⊆ found)
      (hwaiting : waiting.Perm (w.waiting ++ kept))
      (hlossy : lossy = false → w.lossy = false ∧ found ⊆ kept) :
      Step w [(a, found)] { waiting, running := rest, seen := w.seen, lossy }

/-- Steps in a row, with the answers in the order in which they came. -/
inductive Run : Worklist α κ → List (α × List α) → Worklist α κ → Prop
  | refl (w : Worklist α κ) : Run w [] w
  | step {w v u : Worklist α κ} {notes log : List (α × List α)} (h : Step key w notes v)
      (hrun : Run v log u) : Run w (notes ++ log) u

variable {key}

theorem Run.single {w v : Worklist α κ} {notes : List (α × List α)} (h : Step key w notes v) :
    Run key w notes v := by
  simpa using Run.step h (Run.refl v)

/-- The items that were started so far. -/
def launched (w : Worklist α κ) (log : List (α × List α)) : List α :=
  w.running ++ log.map Prod.fst

variable (key) in
/-- Each key is started at most once, only what was reached is ever taken up, and nothing
is forgotten unless the worklist says so. -/
structure Sound (first : List α) (log : List (α × List α)) (w : Worklist α κ) : Prop where
  distinct : ((w.launched log).map key).Nodup
  marked : ∀ a ∈ w.launched log, key a ∈ w.seen
  reached : ∀ a ∈ w.waiting ++ w.launched log, Reached first log a
  covered : w.lossy = false →
    ∀ a ∈ first ++ log.flatMap Prod.snd, key a ∈ w.seen ∨ a ∈ w.waiting
  accounted : w.lossy = false → ∀ k ∈ w.seen, k ∈ (w.launched log).map key

namespace Sound

variable {first : List α} {log : List (α × List α)} {w v : Worklist α κ}

theorem init (first : List α) :
    Sound key first [] { waiting := first, running := [], seen := [], lossy := false } where
  distinct := by simp [launched]
  marked := by simp [launched]
  reached := by
    intro a ha
    exact .first (by simpa [launched] using ha)
  covered := by
    intro _ a ha
    exact .inr (by simpa using ha)
  accounted := by simp

/-- An item that waits is taken out, as one more key. -/
theorem take_covered (h : Sound key first log w) {a : α} {rest : List α}
    (hwaiting : w.waiting.Perm (a :: rest)) (hlossy : w.lossy = false) {b : α}
    (hb : b ∈ first ++ log.flatMap Prod.snd) : key b ∈ key a :: w.seen ∨ b ∈ rest := by
  rcases h.covered hlossy b hb with hseen | hmem
  · exact .inl (List.mem_cons_of_mem _ hseen)
  · rcases List.mem_cons.mp (hwaiting.subset hmem) with rfl | hrest
    · exact .inl (List.mem_cons_self ..)
    · exact .inr hrest

theorem step (h : Sound key first log w) {notes : List (α × List α)}
    (hstep : Step key w notes v) : Sound key first (log ++ notes) v := by
  cases hstep with
  | @skip a rest hwaiting hseen =>
      rw [List.append_nil]
      refine ⟨h.distinct, h.marked, fun b hb => h.reached b ?_, fun hlossy b hb => ?_,
        h.accounted⟩
      · rcases List.mem_append.mp hb with hb | hb
        · exact List.mem_append_left _ (hwaiting.mem_iff.mpr (List.mem_cons_of_mem _ hb))
        · exact List.mem_append_right _ hb
      · rcases h.take_covered hwaiting hlossy hb with hmem | hrest
        · rcases List.mem_cons.mp hmem with heq | hmem
          · exact .inl (heq ▸ hseen)
          · exact .inl hmem
        · exact .inr hrest
  | @start a rest running hwaiting hseen hrunning =>
      rw [List.append_nil]
      have hperm : (running ++ log.map Prod.fst).Perm (a :: w.launched log) :=
        hrunning.append_right _
      have hmem : a ∈ w.waiting := hwaiting.mem_iff.mpr (List.mem_cons_self ..)
      refine ⟨?_, fun b hb => ?_, fun b hb => ?_, fun hlossy b hb => ?_, fun hlossy k hk => ?_⟩
      · refine (hperm.map key).nodup_iff.mpr (List.nodup_cons.mpr ⟨fun hk => hseen ?_, h.distinct⟩)
        obtain ⟨b, hb, heq⟩ := List.mem_map.mp hk
        exact heq ▸ h.marked b hb
      · rcases List.mem_cons.mp (hperm.subset hb) with rfl | hb
        · exact List.mem_cons_self ..
        · exact List.mem_cons_of_mem _ (h.marked b hb)
      · apply h.reached b
        rcases List.mem_append.mp hb with hb | hb
        · exact List.mem_append_left _ (hwaiting.mem_iff.mpr (List.mem_cons_of_mem _ hb))
        · rcases List.mem_cons.mp (hperm.subset hb) with rfl | hb
          · exact List.mem_append_left _ hmem
          · exact List.mem_append_right _ hb
      · exact h.take_covered hwaiting hlossy hb
      · refine (hperm.map key).mem_iff.mpr ?_
        rcases List.mem_cons.mp hk with rfl | hk
        · exact List.mem_cons_self ..
        · exact List.mem_cons_of_mem _ (h.accounted hlossy k hk)
  | @leave a rest hwaiting =>
      rw [List.append_nil]
      refine ⟨h.distinct, fun b hb => List.mem_cons_of_mem _ (h.marked b hb),
        fun b hb => h.reached b ?_, fun hlossy => ?_, fun hlossy => ?_⟩
      · rcases List.mem_append.mp hb with hb | hb
        · exact List.mem_append_left _ (hwaiting.mem_iff.mpr (List.mem_cons_of_mem _ hb))
        · exact List.mem_append_right _ hb
      · cases hlossy
      · cases hlossy
  | lose =>
      rw [List.append_nil]
      refine ⟨h.distinct, h.marked, h.reached, fun hlossy => ?_, fun hlossy => ?_⟩
      · cases hlossy
      · cases hlossy
  | @answer a rest found kept waiting lossy hrunning hkept hwaiting hlossy =>
      have hperm : (rest ++ (log ++ [(a, found)]).map Prod.fst).Perm (w.launched log) := by
        have hlast : ((rest ++ log.map Prod.fst) ++ [a]).Perm (a :: (rest ++ log.map Prod.fst)) :=
          List.perm_append_singleton a _
        simpa [launched, List.append_assoc]
          using hlast.trans (hrunning.append_right (log.map Prod.fst)).symm
      have ha : Reached first (log ++ [(a, found)]) a := by
        apply (h.reached a _).mono (List.subset_append_left _ _)
        exact List.mem_append_right _
          (List.mem_append_left _ (hrunning.mem_iff.mpr (List.mem_cons_self ..)))
      refine ⟨(hperm.map key).nodup_iff.mpr h.distinct, fun b hb => h.marked b (hperm.subset hb),
        fun b hb => ?_, fun hnot b hb => ?_,
        fun hnot k hk => (hperm.map key).mem_iff.mpr (h.accounted (hlossy hnot).1 k hk)⟩
      · rcases List.mem_append.mp hb with hb | hb
        · rcases List.mem_append.mp (hwaiting.subset hb) with hb | hb
          · exact (h.reached b (List.mem_append_left _ hb)).mono (List.subset_append_left _ _)
          · exact .led ha (by simp) (hkept hb)
        · exact (h.reached b (List.mem_append_right _ (hperm.subset hb))).mono
            (List.subset_append_left _ _)
      · obtain ⟨hnot, hall⟩ := hlossy hnot
        have hcases : b ∈ first ++ log.flatMap Prod.snd ∨ b ∈ found := by
          simpa [or_assoc] using hb
        rcases hcases with hb | hb
        · rcases h.covered hnot b hb with hseen | hmem
          · exact .inl hseen
          · exact .inr (hwaiting.mem_iff.mpr (List.mem_append_left _ hmem))
        · exact .inr (hwaiting.mem_iff.mpr (List.mem_append_right _ (hall hb)))

theorem run (h : Sound key first log w) {more : List (α × List α)} (hrun : Run key w more v) :
    Sound key first (log ++ more) v := by
  induction hrun generalizing log with
  | refl w => simpa using h
  | step hstep _ ih =>
      rw [← List.append_assoc]
      exact ih (h.step hstep)

/-- When nothing is left, what the answers lead to has been answered. -/
theorem closed (h : Sound key first log w) (hlossy : w.lossy = false) (hwaiting : w.waiting = [])
    (hrunning : w.running = []) {a : α} (ha : Reached first log a) :
    key a ∈ (log.map Prod.fst).map key := by
  have hmem : a ∈ first ++ log.flatMap Prod.snd := by
    cases ha with
    | first hfirst => exact List.mem_append_left _ hfirst
    | led _ hmem hb => exact List.mem_append_right _ (List.mem_flatMap.mpr ⟨_, hmem, hb⟩)
  rcases h.covered hlossy a hmem with hseen | hwait
  · simpa [launched, hrunning] using h.accounted hlossy _ hseen
  · simp [hwaiting] at hwait

end Sound

end Worklist
