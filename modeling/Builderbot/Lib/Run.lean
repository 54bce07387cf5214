import Mathlib.Data.List.Basic

/-!
# Runs of a transition system

A transition system is a function `step : σ → ι → Option σ`, where `none` says that the label is not
enabled in the state. `run` follows a list of labels, and `Along` says that a condition on the state
and the next label holds at every step that is taken.

The rules for `run` turn what one step does into what every run does. The last section is about the
lists in which such systems keep their calls in progress.
-/

namespace Builderbot

variable {σ ι : Type*}

/-- Follow a list of labels from a state. -/
def run (step : σ → ι → Option σ) (s : σ) : List ι → Option σ
  | [] => some s
  | l :: ls => (step s l).bind fun t => run step t ls

/-- The condition `guard` holds at each step of the run of `ls` from `s`. -/
def Along (step : σ → ι → Option σ) (guard : σ → ι → Prop) (s : σ) : List ι → Prop
  | [] => True
  | l :: ls => guard s l ∧ ∀ t ∈ step s l, Along step guard t ls

instance Along.decidable (step : σ → ι → Option σ) (guard : σ → ι → Prop)
    [hdec : ∀ s l, Decidable (guard s l)] : ∀ s ls, Decidable (Along step guard s ls)
  | _, [] => .isTrue trivial
  | s, l :: ls =>
    match hdec s l, hs : step s l with
    | .isFalse h, _ => .isFalse fun hal => h hal.1
    | .isTrue h, none => .isTrue ⟨h, by simp [hs]⟩
    | .isTrue h, some t =>
      match Along.decidable step guard t ls with
      | .isTrue ht => .isTrue ⟨h, by simpa [hs] using ht⟩
      | .isFalse ht => .isFalse fun hal => ht (hal.2 t (by simp [hs]))

variable {guard : σ → ι → Prop} {Inv P : σ → Prop}

section Run

variable {step : σ → ι → Option σ} {s t : σ} {l : ι} {ls : List ι}

@[simp]
theorem run_nil : run step s [] = some s := rfl

theorem run_cons_eq_some :
    run step s (l :: ls) = some t ↔ ∃ u, step s l = some u ∧ run step u ls = some t := by
  simp [run, Option.bind_eq_some_iff]

/-- A run that can be evaluated reaches a state that passes a test. -/
theorem exists_run_of_any {p : σ → Bool} (h : (run step s ls).any p = true) :
    ∃ t, run step s ls = some t ∧ p t = true := by
  cases hrun : run step s ls with
  | none =>
    rw [hrun] at h
    cases h
  | some t =>
    rw [hrun] at h
    exact ⟨t, rfl, h⟩

theorem run_append_eq_some {ls' : List ι} :
    run step s (ls ++ ls') = some t ↔ ∃ u, run step s ls = some u ∧ run step u ls' = some t := by
  induction ls generalizing s with
  | nil => simp
  | cons l ls ih =>
    rw [List.cons_append, run_cons_eq_some]
    constructor
    · rintro ⟨v, hv, hrun⟩
      obtain ⟨u, hu, hrest⟩ := ih.mp hrun
      exact ⟨u, run_cons_eq_some.mpr ⟨v, hv, hu⟩, hrest⟩
    · rintro ⟨u, hu, hrest⟩
      obtain ⟨v, hv, hvu⟩ := run_cons_eq_some.mp hu
      exact ⟨v, hv, ih.mpr ⟨u, hvu, hrest⟩⟩

/-- What every guarded step preserves, every guarded run preserves. -/
theorem run_invariant_along (hstep : ∀ s l t, Inv s → guard s l → step s l = some t → Inv t)
    (hs : Inv s) (hguard : Along step guard s ls) (h : run step s ls = some t) : Inv t := by
  induction ls generalizing s with
  | nil =>
    rw [run_nil, Option.some.injEq] at h
    exact h ▸ hs
  | cons l ls ih =>
    obtain ⟨u, hu, hrun⟩ := run_cons_eq_some.mp h
    exact ih (hstep s l u hs hguard.1 hu) (hguard.2 u hu) hrun

theorem along_cons (h : step s l = some t) :
    Along step guard s (l :: ls) ↔ guard s l ∧ Along step guard t ls := by
  refine and_congr_right fun _ => ⟨fun hrest => hrest t h, fun hrest u hu => ?_⟩
  rw [h, Option.mem_some_iff] at hu
  exact hu ▸ hrest

/-- What holds after a step exactly if it held before and the step met the condition. -/
theorem run_iff_along (hinv : ∀ s l t, Inv s → step s l = some t → Inv t)
    (hstep : ∀ s l t, Inv s → step s l = some t → (P t ↔ P s ∧ guard s l)) (hs : Inv s) (h : run step s ls = some t) :
    P t ↔ P s ∧ Along step guard s ls := by
  induction ls generalizing s with
  | nil =>
    rw [run_nil, Option.some.injEq] at h
    exact h ▸ ⟨fun hp => ⟨hp, trivial⟩, And.left⟩
  | cons l ls ih =>
    obtain ⟨u, hu, hrun⟩ := run_cons_eq_some.mp h
    rw [ih (hinv s l u hs hu) hrun, hstep s l u hs hu, along_cons hu, and_assoc]

/-- Where a step keeps what held exactly if it meets the condition, it holds in every state of a run exactly if all
steps meet the condition. -/
theorem forall_prefix_iff_along (hinv : ∀ s l t, Inv s → step s l = some t → Inv t)
    (hstep : ∀ s l t, Inv s → P s → step s l = some t → (P t ↔ guard s l)) (hs : Inv s) (hP : P s)
    (h : run step s ls = some t) :
    (∀ pre post u, ls = pre ++ post → run step s pre = some u → P u) ↔ Along step guard s ls := by
  induction ls generalizing s with
  | nil =>
    refine ⟨fun _ => trivial, fun _ pre post u hls hu => ?_⟩
    obtain ⟨rfl, -⟩ := List.append_eq_nil_iff.mp hls.symm
    rw [run_nil, Option.some.injEq] at hu
    exact hu ▸ hP
  | cons l ls ih =>
    obtain ⟨v, hv, hrun⟩ := run_cons_eq_some.mp h
    rw [along_cons hv]
    constructor
    · intro hall
      have hPv : P v := hall [l] ls v rfl (run_cons_eq_some.mpr ⟨v, hv, rfl⟩)
      refine ⟨(hstep s l v hs hP hv).mp hPv, (ih (hinv s l v hs hv) hPv hrun).mp fun pre post u hls hu => ?_⟩
      exact hall (l :: pre) post u (by rw [hls, List.cons_append]) (run_cons_eq_some.mpr ⟨v, hv, hu⟩)
    · rintro ⟨hl, hrest⟩ pre post u hls hu
      have hPv : P v := (hstep s l v hs hP hv).mpr hl
      cases pre with
      | nil =>
        rw [run_nil, Option.some.injEq] at hu
        exact hu ▸ hP
      | cons l' pre =>
        obtain ⟨hl', htail⟩ := List.cons.inj hls
        subst hl'
        obtain ⟨w, hw, hu⟩ := run_cons_eq_some.mp hu
        rw [hv, Option.some.injEq] at hw
        subst hw
        exact (ih (hinv s l v hs hv) hPv hrun).mpr hrest pre post u htail hu

/-- A run in two parts. -/
theorem Along.append {ls' : List ι} : Along step guard s (ls ++ ls') ↔
      Along step guard s ls ∧ ∀ t, run step s ls = some t → Along step guard t ls' := by
  induction ls generalizing s with
  | nil =>
    rw [List.nil_append]
    refine ⟨fun h => ⟨trivial, ?_⟩, fun h => h.2 s rfl⟩
    rintro t ht
    rw [run_nil, Option.some.injEq] at ht
    exact ht ▸ h
  | cons l ls ih =>
    constructor
    · rintro ⟨hl, hrest⟩
      refine ⟨⟨hl, fun u hu => (ih.mp (hrest u hu)).1⟩, fun t ht => ?_⟩
      obtain ⟨u, hu, hrun⟩ := run_cons_eq_some.mp ht
      exact (ih.mp (hrest u hu)).2 t hrun
    · rintro ⟨⟨hl, hfirst⟩, hsecond⟩
      refine ⟨hl, fun u hu => ih.mpr ⟨hfirst u hu, fun t ht => ?_⟩⟩
      exact hsecond t (run_cons_eq_some.mpr ⟨u, hu, ht⟩)

/-- A condition on the labels alone holds along a run when it holds of every label. -/
theorem Along.of_forall {P : ι → Prop} (h : ∀ l ∈ ls, P l) : Along step (fun _ l => P l) s ls := by
  induction ls generalizing s with
  | nil => exact trivial
  | cons l ls ih =>
    obtain ⟨hl, hls⟩ := List.forall_mem_cons.mp h
    exact ⟨hl, fun t _ => ih hls⟩

/-- A condition on the labels alone in addition to one that holds along the run. -/
theorem Along.and_forall {P : ι → Prop} (h : Along step guard s ls)
    (hP : ∀ l ∈ ls, P l) : Along step (fun s l => guard s l ∧ P l) s ls := by
  induction ls generalizing s with
  | nil => exact trivial
  | cons l ls ih =>
    obtain ⟨hl, hls⟩ := List.forall_mem_cons.mp hP
    exact ⟨⟨h.1, hl⟩, fun t ht => ih (h.2 t ht) hls⟩

/-- What follows from an invariant and the guard of a step holds at every step of a guarded run. -/
theorem Along.of_invariant {P : σ → ι → Prop} (h : Along step guard s ls)
    (hs : Inv s) (hstep : ∀ s l t, Inv s → guard s l → step s l = some t → Inv t)
    (hP : ∀ s l, Inv s → guard s l → P s l) : Along step P s ls := by
  induction ls generalizing s with
  | nil => exact trivial
  | cons l ls ih => exact ⟨hP s l hs h.1, fun t ht => ih (h.2 t ht) (hstep s l t hs h.1 ht)⟩

/-- What every step preserves, every run preserves. -/
theorem run_invariant (hstep : ∀ s l t, Inv s → step s l = some t → Inv t)
    (hs : Inv s) (h : run step s ls = some t) : Inv t :=
  run_invariant_along (fun s l t hi _ => hstep s l t hi) hs
    (Along.of_forall (P := fun _ => True) fun _ _ => trivial) h

/-- A property that a step can only end with a certain event survives a run unless the event occurs
in it: the run splits at the step of the event. -/
theorem run_until {Event : σ → ι → Prop} (hstep : ∀ s l t, P s → step s l = some t → P t ∨ Event s l)
    (hs : P s) (h : run step s ls = some t) :
    P t ∨ ∃ pre l post u, ls = pre ++ l :: post ∧ run step s pre = some u ∧ Event u l := by
  induction ls generalizing s with
  | nil =>
    rw [run_nil, Option.some.injEq] at h
    exact .inl (h ▸ hs)
  | cons l ls ih =>
    obtain ⟨v, hv, hrun⟩ := run_cons_eq_some.mp h
    rcases hstep s l v hs hv with hP | hE
    · rcases ih hP hrun with ht | ⟨pre, l', post, u, rfl, hpre, hE⟩
      · exact .inl ht
      · exact .inr ⟨l :: pre, l', post, u, rfl, run_cons_eq_some.mpr ⟨v, hv, hpre⟩, hE⟩
    · exact .inr ⟨[], l, ls, s, rfl, rfl, hE⟩

end Run

/-! ## Calls in progress -/

section Calls

variable {α : Type*} {calls : List α} {i : ℕ} {a : α}

/-- A step that moves the call at `i` leaves the others where they are. -/
theorem modify_getElem? (h : calls[i]? = some a) (f : α → α) :
    ∃ pre post, calls = pre ++ a :: post ∧ calls.modify i f = pre ++ f a :: post := by
  obtain ⟨hlt, -⟩ := List.getElem?_eq_some_iff.mp h
  obtain ⟨pre, b, post, hcalls, hlen, hmod⟩ := List.exists_of_modify f hlt
  have hb : b = a := by
    rw [hcalls, ← hlen] at h
    simpa using h
  exact ⟨pre, post, hb ▸ hcalls, hb ▸ hmod⟩

theorem mem_modify (h : calls[i]? = some a) {f : α → α} {b : α} (hb : b ∈ calls.modify i f) :
    b ∈ calls ∨ b = f a := by
  obtain ⟨pre, post, hcalls, hmod⟩ := modify_getElem? h f
  rw [hmod, List.mem_append, List.mem_cons] at hb
  rw [hcalls, List.mem_append, List.mem_cons]
  tauto

/-- The calls are one of them and the others. -/
theorem mem_iff_eraseIdx (h : calls[i]? = some a) {b : α} : b ∈ calls ↔ b = a ∨ b ∈ calls.eraseIdx i := by
  rw [List.mem_eraseIdx_iff_getElem?]
  constructor
  · intro hb
    obtain ⟨j, hj⟩ := List.mem_iff_getElem?.mp hb
    by_cases hji : j = i
    · subst hji
      exact .inl (Option.some.inj (hj.symm.trans h))
    · exact .inr ⟨j, hji, hj⟩
  · rintro (rfl | ⟨j, -, hj⟩)
    · exact List.mem_of_getElem? h
    · exact List.mem_of_getElem? hj

/-- The calls after another one has begun. -/
theorem of_getElem?_concat {j : ℕ} {b : α} (hb : (calls ++ [a])[j]? = some b) :
    calls[j]? = some b ∨ (j = calls.length ∧ b = a) := by
  rw [List.getElem?_append] at hb
  split at hb
  · exact .inl hb
  · obtain ⟨hlt, rfl⟩ := List.getElem?_eq_some_iff.mp hb
    rw [List.length_singleton] at hlt
    exact .inr ⟨by omega, by simp⟩

/-- The calls after the call at `i` has moved. -/
theorem of_getElem?_modify (h : calls[i]? = some a) {f : α → α} {j : ℕ} {b : α}
    (hb : (calls.modify i f)[j]? = some b) : (j = i ∧ b = f a) ∨ (j ≠ i ∧ calls[j]? = some b) := by
  rw [List.getElem?_modify] at hb
  by_cases hj : i = j
  · subst hj
    rw [h] at hb
    exact .inl ⟨rfl, by simpa using hb.symm⟩
  · exact .inr ⟨fun h => hj h.symm, by simpa [hj] using hb⟩

/-- Moving a call changes the number of calls with a property by the moved call only. -/
theorem countP_modify (h : calls[i]? = some a) (f : α → α) (p : α → Bool) :
    (calls.modify i f).countP p + (if p a then 1 else 0)
      = calls.countP p + (if p (f a) then 1 else 0) := by
  obtain ⟨pre, post, hcalls, hmod⟩ := modify_getElem? h f
  rw [hmod, hcalls]
  simp only [List.countP_append, List.countP_cons]
  omega

/-- The call at `i` goes on as the calls `left`. -/
def replaceAt (calls : List α) (i : ℕ) (left : List α) : List α := calls.take i ++ left ++ calls.drop (i + 1)

theorem mem_replaceAt {left : List α} {b : α} (hb : b ∈ replaceAt calls i left) : b ∈ calls ∨ b ∈ left := by
  rw [replaceAt, List.mem_append, List.mem_append] at hb
  rcases hb with (hb | hb) | hb
  · exact .inl (List.mem_of_mem_take hb)
  · exact .inr hb
  · exact .inl (List.mem_of_mem_drop hb)

theorem any_replaceAt (calls : List α) (i : ℕ) (left : List α) (p : α → Bool) :
    (replaceAt calls i left).any p = ((calls.eraseIdx i).any p || left.any p) := by
  rw [replaceAt, List.eraseIdx_eq_take_drop_succ]
  simp only [List.any_append]
  cases left.any p <;> simp

/-- A call and the others. -/
theorem any_eq_eraseIdx (h : calls[i]? = some a) (p : α → Bool) :
    calls.any p = ((calls.eraseIdx i).any p || p a) := by
  obtain ⟨hlt, hget⟩ := List.getElem?_eq_some_iff.mp h
  have hcalls : calls = replaceAt calls i [a] := by
    rw [replaceAt, ← hget]
    simp
  conv_lhs => rw [hcalls]
  rw [any_replaceAt]
  simp

end Calls

end Builderbot
