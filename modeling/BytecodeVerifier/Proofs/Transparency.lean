import BytecodeVerifier.Proofs.Preimage
import BytecodeVerifier.Verifier
import Mathlib.Algebra.Order.BigOperators.Group.Finset

/-!
# Transparency — a shared cache changes no report

Calls of a verifier share its cache, and may run at the same time.  A call looks its method up; if
nothing is found it verifies the method, which may be cancelled, and puts the report into the cache.
Each of these is one `Step` of a `Session`, and the steps of different calls come in any order.

**Every call which gives a report gives the verdict on its own method** (`cache_transparent`),
although the report may have been found for another.  What carries this is that the cache is
*faithful*: the report kept for a fingerprint is the verdict on every method with that fingerprint.
Putting a report keeps the cache faithful because the fingerprint covers all that a verdict depends
on: it tells the elements of methods apart, these tell everything but the name
(`Fingerprint.elements_unambiguous`), and the name is not read (`Method.verify_of_resembles`).

A digest of 253 bits cannot tell all sequences of elements apart.  It is asked to do so only for the
methods at hand (`Fingerprint.Separates`).
-/

namespace BytecodeVerifier

open Dataflow ControlFlow

/-! ### Verdicts and names -/

namespace Method

section Renamed

variable (m : Method) (name : String)

theorem solve_renamed (g : Graph) : { m with name }.solve g = m.solve g := by
  -- Solving is a well-founded recursion, and has to be opened for this.
  with_unfolding_all rfl

theorem checkAlong_renamed (s : State) (pcs : List Nat) :
    { m with name }.checkAlong s pcs = m.checkAlong s pcs := by
  induction pcs generalizing s with
  | nil => rfl
  | cons pc pcs ih =>
      simp only [checkAlong, ih]
      rfl

theorem inspect_renamed (g : Graph) (w : Worklist) (blocks : List Block) :
    { m with name }.inspect g w blocks = m.inspect g w blocks := by
  induction blocks with
  | nil => rfl
  | cons b blocks ih => simp only [inspect, inspectBlock, checkAlong_renamed, ih]

theorem trace_renamed : { m with name }.trace = m.trace := by
  simp only [trace, judge, solve_renamed, inspect_renamed]

end Renamed

/-- Methods which differ in their names at most have the same verdict. -/
theorem verify_of_resembles {m n : Method} (h : m.Resembles n) : m.verify = n.verify := by
  obtain ⟨name, ⟨size, parameters, _⟩, returns, code⟩ := m
  obtain ⟨name', ⟨size', parameters', _⟩, returns', code'⟩ := n
  obtain ⟨rfl, rfl, rfl, rfl⟩ := h
  exact congrArg Prod.snd (trace_renamed ⟨name', ⟨_, _, _⟩, _, _⟩ name)

/-- What is not cancelled ends in the verdict. -/
theorem examine_false (m : Method) : (m.examine false).2 = m.verify.mapError .fault := rfl

/-- A verification which ends in a report ends in the verdict, cancelled or not. -/
theorem verify_of_examine {m : Method} {cancelled : Bool} {r : Report}
    (h : (m.examine cancelled).2 = .ok r) : m.verify = .ok r := by
  cases cancelled with
  | true =>
      unfold examine at h
      unfold verify trace
      rw [if_pos rfl] at h
      split at h
      · exact Except.ok.inj h ▸ rfl
      · split at h <;> cases h
  | false =>
      rw [examine_false] at h
      cases hv : m.verify with
      | error f => rw [hv] at h; cases h
      | ok r' => rw [hv] at h; exact congrArg Except.ok (Except.ok.inj h)

/-- How a verification may end.  It may be cancelled at any time, and then ends as if it had been
cancelled from the start. -/
def Ends (m : Method) (result : Except Interruption Report) : Prop :=
  ∃ cancelled, (m.examine cancelled).2 = result

end Method

/-! ### Faithful caches -/

/-- The fingerprints of some methods tell their elements apart.  The methods are over the
instruction set, so their elements tell what they are. -/
structure Fingerprint.Separates (Fed : Method → Prop) : Prop where
  standard : ∀ m, Fed m → m.Standard
  injective : ∀ m n, Fed m → Fed n →
    Mimc.digest (elements m) = Mimc.digest (elements n) → elements m = elements n

/-- Methods with one fingerprint have one verdict. -/
theorem Fingerprint.Separates.verify_eq {Fed : Method → Prop} (h : Separates Fed) {m n : Method}
    (hm : Fed m) (hn : Fed n) (e : Fingerprint.of m = Fingerprint.of n) : m.verify = n.verify := by
  have hdigest : Mimc.digest (elements m) = Mimc.digest (elements n) := Fingerprint.mk.inj e
  have hsame := h.injective m n hm hn hdigest
  have hshape := (resembles_of_elements_append (h.standard m hm) (h.standard n hn)
    (congrArg (· ++ []) hsame)).1
  exact Method.verify_of_resembles hshape

namespace Cache

theorem lookup_put_same (c : Cache) (f : Fingerprint) (r : Report) :
    (c.put f r).entries.lookup f = some r := by
  simp [put]

theorem lookup_put_other (c : Cache) {f f' : Fingerprint} (r : Report) (h : f' ≠ f) :
    (c.put f r).entries.lookup f' = c.entries.lookup f' := by
  rw [put, List.lookup_cons, beq_eq_false_iff_ne.mpr h]
  dsimp only
  induction c.entries with
  | nil => rfl
  | cons e es ih =>
      by_cases he : e.1 = f
      · have hne : (f' == e.1) = false := beq_eq_false_iff_ne.mpr (he ▸ h)
        rw [List.filter_cons_of_neg (by simp [he]), ih, List.lookup_cons, hne]
      · rw [List.filter_cons_of_pos (by simp [he]), List.lookup_cons, List.lookup_cons, ih]

/-- The report kept for a fingerprint is the verdict on every method with that fingerprint. -/
def Faithful (Fed : Method → Prop) (c : Cache) : Prop :=
  ∀ f r, c.entries.lookup f = some r → ∀ m, Fed m → Fingerprint.of m = f → m.verify = .ok r

variable {Fed : Method → Prop}

theorem faithful_empty : Faithful Fed empty := by
  intro f r h
  cases h

/-- **Putting a verdict keeps the cache faithful**, also to the other methods of its fingerprint. -/
theorem Faithful.put (hsep : Fingerprint.Separates Fed) {c : Cache} (hc : c.Faithful Fed)
    {m : Method} {r : Report} (hm : Fed m) (hv : m.verify = .ok r) :
    (c.put (.of m) r).Faithful Fed := by
  intro f r' h n hn hf
  by_cases e : f = Fingerprint.of m
  · subst e
    rw [lookup_put_same] at h
    rw [hsep.verify_eq hn hm hf, hv, Option.some.inj h]
  · rw [lookup_put_other c r e] at h
    exact hc f r' h n hn hf

/-- A look-up finds what is kept, and counts; it changes nothing else. -/
theorem get_cases (c : Cache) (f : Fingerprint) :
    (∃ r, c.entries.lookup f = some r ∧ c.get f = (some r, { c with hits := c.hits + 1 })) ∨
      (c.entries.lookup f = none ∧ c.get f = (none, { c with misses := c.misses + 1 })) := by
  unfold get
  cases h : c.entries.lookup f with
  | none => exact .inr ⟨rfl, rfl⟩
  | some r => exact .inl ⟨r, rfl, rfl⟩

end Cache

/-! ### Sessions -/

/-- What a call has come to. -/
inductive Phase where
  /-- It has not begun. -/
  | waiting
  /-- It found nothing in the cache. -/
  | searched
  /-- It has a report of its own, which it is about to put into the cache. -/
  | judged (report : Report)
  /-- It has ended. -/
  | ended (result : Except Refusal Report)

namespace Phase

/-- How many steps a call has taken, where the last one counts for those left out. -/
def taken : Phase → Nat
  | waiting => 0
  | searched => 1
  | judged _ => 2
  | ended _ => 3

/-- Whether a call is under way, as a number. -/
def active : Phase → Nat
  | searched | judged _ => 1
  | waiting | ended _ => 0

theorem taken_le (p : Phase) : p.taken ≤ 3 := by
  cases p <;> simp [taken]

theorem active_le (p : Phase) : p.active ≤ 1 := by
  cases p <;> simp [active]

end Phase

/-- What is known of a call of a method by its phase: the report it has is the verdict, and it has
stored one only if it gave one. -/
def Phase.Justified (m : Method) (stored : Prop) : Phase → Prop
  | waiting | searched => ¬ stored
  | judged r => m.verify = .ok r ∧ ¬ stored
  | ended (.ok r) => m.verify = .ok r
  | ended (.error _) => ¬ stored

/-- What a call does in one step. -/
inductive Action where
  | get
  | examine
  | put
  deriving DecidableEq

/-- The cache which some calls share, and what each of them has come to. -/
structure Session (ι : Type) where
  cache : Cache
  phase : ι → Phase

namespace Session

variable {ι : Type}

/-- No call has begun, and the cache is empty. -/
def initial : Session ι := ⟨.empty, fun _ => .waiting⟩

variable [DecidableEq ι]

/-- One call comes to another phase, and leaves a cache. -/
def advance (s : Session ι) (i : ι) (cache : Cache) (phase : Phase) : Session ι :=
  ⟨cache, Function.update s.phase i phase⟩

/-- A step of one call, each of which verifies a method of its own. -/
inductive Step (methods : ι → Method) (s : Session ι) : ι × Action → Session ι → Prop where
  /-- A report is found, and given. -/
  | hit {i : ι} {r : Report} {cache : Cache} : s.phase i = .waiting →
      s.cache.get (.of (methods i)) = (some r, cache) →
      Step methods s (i, .get) (s.advance i cache (.ended (.ok r)))
  /-- No report is found. -/
  | miss {i : ι} {cache : Cache} : s.phase i = .waiting →
      s.cache.get (.of (methods i)) = (none, cache) →
      Step methods s (i, .get) (s.advance i cache .searched)
  /-- The verification ends in a report. -/
  | judge {i : ι} {r : Report} : s.phase i = .searched → (methods i).Ends (.ok r) →
      Step methods s (i, .examine) (s.advance i s.cache (.judged r))
  /-- The verification does not end in a report. -/
  | refuse {i : ι} {e : Interruption} : s.phase i = .searched → (methods i).Ends (.error e) →
      Step methods s (i, .examine)
        (s.advance i s.cache (.ended (Verifier.outcome (methods i) (.error e))))
  /-- The report is put into the cache, and given. -/
  | put {i : ι} {r : Report} : s.phase i = .judged r →
      Step methods s (i, .put)
        (s.advance i (s.cache.put (.of (methods i)) r) (.ended (.ok r)))

/-- Steps, one after the other. -/
inductive Run (methods : ι → Method) (s : Session ι) : List (ι × Action) → Session ι → Prop where
  | refl : Run methods s [] s
  | step {history : List (ι × Action)} {act : ι × Action} {t u : Session ι} :
      Run methods s history t → Step methods t act u → Run methods s (history ++ [act]) u

@[simp]
theorem cache_advance (s : Session ι) (i : ι) (cache : Cache) (phase : Phase) :
    (s.advance i cache phase).cache = cache := rfl

@[simp]
theorem phase_advance_same (s : Session ι) (i : ι) (cache : Cache) (phase : Phase) :
    (s.advance i cache phase).phase i = phase := Function.update_self ..

@[simp]
theorem phase_advance_other (s : Session ι) {i j : ι} (cache : Cache) (phase : Phase)
    (h : j ≠ i) : (s.advance i cache phase).phase j = s.phase j := Function.update_of_ne h ..

/-- A step takes its call further, and no other. -/
theorem Step.exists_advance {methods : ι → Method} {s t : Session ι} {act : ι × Action}
    (h : Step methods s act t) : ∃ cache phase, t = s.advance act.1 cache phase ∧
      (s.phase act.1).taken < phase.taken := by
  cases h with
  | hit hphase _ | miss hphase _ | judge hphase _ | refuse hphase _ | put hphase =>
      exact ⟨_, _, rfl, by simp [hphase, Phase.taken]⟩

/-- A call which has not ended can take a step. -/
theorem exists_step_of_not_ended (methods : ι → Method) {s : Session ι} {i : ι}
    (h : ∀ result, s.phase i ≠ .ended result) :
    ∃ act cache phase, Step methods s (i, act) (s.advance i cache phase) := by
  cases hphase : s.phase i with
  | waiting =>
      rcases s.cache.get_cases (.of (methods i)) with ⟨r, -, e⟩ | ⟨-, e⟩
      · exact ⟨_, _, _, .hit hphase e⟩
      · exact ⟨_, _, _, .miss hphase e⟩
  | searched =>
      cases hresult : ((methods i).examine false).2 with
      | ok r => exact ⟨_, _, _, .judge hphase ⟨false, hresult⟩⟩
      | error e => exact ⟨_, _, _, .refuse hphase ⟨false, hresult⟩⟩
  | judged r => exact ⟨_, _, _, .put hphase⟩
  | ended result => exact absurd hphase (h result)

/-! ### What every step keeps -/

/-- What holds at every moment of a session, after the steps of its history. -/
structure Sound (Fed : Method → Prop) (methods : ι → Method) (history : List (ι × Action))
    (s : Session ι) : Prop where
  faithful : s.cache.Faithful Fed
  justified : ∀ i, (s.phase i).Justified (methods i) ((i, .put) ∈ history)
  /-- What is in the cache was put there by a call. -/
  origin : ∀ f r, s.cache.entries.lookup f = some r →
    ∃ i, (i, .put) ∈ history ∧ Fingerprint.of (methods i) = f
  counted : s.cache.hits + s.cache.misses = history.countP (·.2 = .get)

variable {Fed : Method → Prop} {methods : ι → Method} {history : List (ι × Action)}
  {s t : Session ι}

omit [DecidableEq ι] in
theorem sound_initial : Sound Fed methods [] initial where
  faithful := Cache.faithful_empty
  justified _ := List.not_mem_nil
  origin f r h := by cases h
  counted := rfl

/-- The other calls stay where they are, so a step is judged by what the acting one comes to. -/
theorem Sound.advance (h : Sound Fed methods history s) {i : ι} {act : Action} {cache : Cache}
    {phase : Phase} (hfaithful : cache.Faithful Fed)
    (hphase : phase.Justified (methods i) ((i, .put) ∈ history ++ [(i, act)]))
    (horigin : ∀ f r, cache.entries.lookup f = some r →
      ∃ j, (j, .put) ∈ history ++ [(i, act)] ∧ Fingerprint.of (methods j) = f)
    (hcount : cache.hits + cache.misses = (history ++ [(i, act)]).countP (·.2 = .get)) :
    Sound Fed methods (history ++ [(i, act)]) (s.advance i cache phase) := by
  refine ⟨hfaithful, fun j => ?_, horigin, hcount⟩
  by_cases hj : j = i
  · subst hj
    rw [phase_advance_same]
    exact hphase
  · have hmem : (j, Action.put) ∈ history ++ [(i, act)] ↔ (j, Action.put) ∈ history := by
      simp [hj]
    rw [phase_advance_other s cache phase hj, hmem]
    exact h.justified j

/-- **Every step keeps what holds of a session.** -/
theorem Sound.step (hsep : Fingerprint.Separates Fed) (hfed : ∀ i, Fed (methods i))
    (h : Sound Fed methods history s) {act : ι × Action} (hstep : Step methods s act t) :
    Sound Fed methods (history ++ [act]) t := by
  have horigin := fun i (act : Action) f r hl => (h.origin f r hl).imp fun j hj =>
    And.imp_left (List.mem_append_left [(i, act)]) hj
  cases hstep with
  | @hit i r cache hphase hget =>
      rcases s.cache.get_cases (.of (methods i)) with ⟨r', hlookup, e⟩ | ⟨-, e⟩ <;>
        rw [hget] at e <;> cases e
      refine h.advance h.faithful ?_ (horigin i .get) ?_
      · exact h.faithful _ r hlookup (methods i) (hfed i) rfl
      · have := h.counted
        simp
        omega
  | @miss i cache hphase hget =>
      rcases s.cache.get_cases (.of (methods i)) with ⟨r', -, e⟩ | ⟨-, e⟩ <;>
        rw [hget] at e <;> cases e
      refine h.advance h.faithful ?_ (horigin i .get) ?_
      · have := h.justified i
        rw [hphase] at this
        simpa [Phase.Justified] using this
      · have := h.counted
        simp
        omega
  | @judge i r hphase hends =>
      refine h.advance h.faithful ?_ (horigin i .examine) ?_
      · obtain ⟨cancelled, he⟩ := hends
        have := h.justified i
        rw [hphase] at this
        exact ⟨Method.verify_of_examine he, by simpa [Phase.Justified] using this⟩
      · simpa using h.counted
  | @refuse i e hphase hends =>
      refine h.advance h.faithful ?_ (horigin i .examine) ?_
      · have := h.justified i
        rw [hphase] at this
        cases e <;> simpa [Phase.Justified, Verifier.outcome] using this
      · simpa using h.counted
  | @put i r hphase =>
      have hjust := h.justified i
      rw [hphase] at hjust
      refine h.advance (h.faithful.put hsep (hfed i) hjust.1) hjust.1 ?_ ?_
      · intro f r' hl
        by_cases hf : f = Fingerprint.of (methods i)
        · exact ⟨i, by simp, hf.symm⟩
        · rw [Cache.lookup_put_other s.cache r hf] at hl
          exact horigin i .put f r' hl
      · simpa [Cache.put] using h.counted

/-- What holds at every moment of a session which starts with an empty cache. -/
theorem Run.sound (hsep : Fingerprint.Separates Fed) (hfed : ∀ i, Fed (methods i))
    (h : Run methods initial history s) : Sound Fed methods history s := by
  induction h with
  | refl => exact sound_initial
  | step _ hstep ih => exact ih.step hsep hfed hstep

/-! ### Batches -/

section Batch

variable {n : Nat}

/-- What the phases of all calls weigh together. -/
def total (weight : Phase → Nat) (s : Session (Fin n)) : Nat := ∑ i, weight (s.phase i)

theorem total_advance (weight : Phase → Nat) (s : Session (Fin n)) (i : Fin n) (cache : Cache)
    (phase : Phase) :
    (s.advance i cache phase).total weight + weight (s.phase i) =
      s.total weight + weight phase := by
  have hother : ∑ j ∈ Finset.univ.erase i, weight ((s.advance i cache phase).phase j) =
      ∑ j ∈ Finset.univ.erase i, weight (s.phase j) :=
    Finset.sum_congr rfl fun j hj => by
      rw [phase_advance_other s cache phase (Finset.ne_of_mem_erase hj)]
  have hafter := Finset.add_sum_erase Finset.univ
    (fun j => weight ((s.advance i cache phase).phase j)) (Finset.mem_univ i)
  have hbefore := Finset.add_sum_erase Finset.univ
    (fun j => weight (s.phase j)) (Finset.mem_univ i)
  simp only [phase_advance_same] at hafter
  unfold total
  omega

/-- A limit on how many calls are under way at a time; 0 means none. -/
def WithinLimit (workers : Nat) (s : Session (Fin n)) : Prop :=
  workers = 0 ∨ s.total Phase.active ≤ workers

/-- Methods are verified by one call each, within a limit, and these are the steps so far. -/
inductive Batch (workers : Nat) (ms : List Method) :
    List (Fin ms.length × Action) → Session (Fin ms.length) → Prop where
  | start : Batch workers ms [] initial
  | step {history : List (Fin ms.length × Action)} {act : Fin ms.length × Action}
      {s t : Session (Fin ms.length)} : Batch workers ms history s → Step ms.get s act t →
      t.WithinLimit workers → Batch workers ms (history ++ [act]) t

theorem Batch.run {workers : Nat} {ms : List Method} {history : List (Fin ms.length × Action)}
    {s : Session (Fin ms.length)} (h : Batch workers ms history s) :
    Run ms.get initial history s := by
  induction h with
  | start => exact .refl
  | step _ hstep _ ih => exact ih.step hstep

theorem Batch.withinLimit {workers : Nat} {ms : List Method}
    {history : List (Fin ms.length × Action)} {s : Session (Fin ms.length)}
    (h : Batch workers ms history s) : s.WithinLimit workers := by
  cases h with
  | start => exact .inr (by simp [total, initial, Phase.active])
  | step _ _ hlimit => exact hlimit

/-- A batch takes three steps for each method at most. -/
theorem Batch.length_le {workers : Nat} {ms : List Method}
    {history : List (Fin ms.length × Action)} {s : Session (Fin ms.length)}
    (h : Batch workers ms history s) : history.length ≤ 3 * ms.length := by
  have htaken : history.length ≤ s.total Phase.taken := by
    induction h with
    | start => exact Nat.zero_le _
    | @step _ act s t _ hstep _ ih =>
        obtain ⟨cache, phase, rfl, hlt⟩ := hstep.exists_advance
        have := total_advance Phase.taken s act.1 cache phase
        rw [List.length_append, List.length_singleton]
        omega
  have hle : s.total Phase.taken ≤ ms.length * 3 := by
    have := Finset.sum_le_card_nsmul Finset.univ (fun i => (s.phase i).taken) 3
      fun i _ => (s.phase i).taken_le
    simpa [total] using this
  omega

/-- **A batch is not stuck** whilst a call has not ended: a call under way can go on, and if none
is, another can begin. -/
theorem Batch.exists_step {workers : Nat} {ms : List Method}
    {history : List (Fin ms.length × Action)} {s : Session (Fin ms.length)}
    (h : Batch workers ms history s) (hleft : ∃ i, ∀ result, s.phase i ≠ .ended result) :
    ∃ act t, Batch workers ms (history ++ [act]) t := by
  by_cases hactive : ∃ i, (s.phase i).active = 1
  · obtain ⟨i, hi⟩ := hactive
    have hgoes : ∀ result, s.phase i ≠ .ended result := by
      intro result e
      rw [e] at hi
      cases hi
    obtain ⟨act, cache, phase, hstep⟩ := exists_step_of_not_ended ms.get hgoes
    refine ⟨_, _, h.step hstep ?_⟩
    have := total_advance Phase.active s i cache phase
    have := phase.active_le
    rcases h.withinLimit with hnone | hle
    · exact .inl hnone
    · exact .inr (by omega)
  · obtain ⟨i, hi⟩ := hleft
    obtain ⟨act, cache, phase, hstep⟩ := exists_step_of_not_ended ms.get hi
    refine ⟨_, _, h.step hstep ?_⟩
    have hzero : s.total Phase.active = 0 := by
      refine Finset.sum_eq_zero fun j _ => ?_
      have := (s.phase j).active_le
      have : (s.phase j).active ≠ 1 := fun e => hactive ⟨j, e⟩
      omega
    have := total_advance Phase.active s i cache phase
    have := phase.active_le
    rcases Nat.eq_zero_or_pos workers with hnone | hpos
    · exact .inl hnone
    · exact .inr (by omega)

/-- **The reports of a batch are the verdicts, in order**, once every call has ended in a report. -/
theorem Batch.reports (hsep : Fingerprint.Separates Fed) {workers : Nat} {ms : List Method}
    (hfed : ∀ m ∈ ms, Fed m) {history : List (Fin ms.length × Action)}
    {s : Session (Fin ms.length)} (h : Batch workers ms history s)
    (hend : ∀ i, ∃ r, s.phase i = .ended (.ok r)) :
    ∃ rs : List Report, ms.map Method.verify = rs.map .ok ∧
      ∀ i r, s.phase i = .ended (.ok r) ↔ rs[i.val]? = some r := by
  have hsound := h.run.sound hsep fun i => hfed _ (ms.get_mem i)
  choose r hr using hend
  refine ⟨List.ofFn r, ?_, fun i r' => ?_⟩
  · conv_lhs => rw [← List.ofFn_get ms]
    rw [List.map_ofFn, List.map_ofFn]
    refine congrArg List.ofFn (funext fun i => ?_)
    have := hsound.justified i
    rw [hr i] at this
    exact this
  · simp [hr i]

end Batch

/-! ### Calls of a verifier -/

/-- **A call of a verifier is steps of a session**, with none of other calls between them. -/
theorem run_verify (methods : ι → Method) {s : Session ι} {i : ι} (hwait : s.phase i = .waiting)
    {v : Verifier} (hv : v.cache = some s.cache) (cancelled : Bool) :
    ∃ history t, Run methods s history t ∧ (∀ act ∈ history, act.1 = i) ∧
      t.phase = Function.update s.phase i (.ended (v.verify cancelled (methods i)).2.1) ∧
      (v.verify cancelled (methods i)).2.2 = { v with cache := some t.cache } := by
  unfold Verifier.verify
  rw [hv]
  rcases s.cache.get_cases (.of (methods i)) with ⟨r, -, e⟩ | ⟨-, e⟩
  · refine ⟨_, _, .step .refl (.hit hwait e), by simp, ?_, ?_⟩ <;> simp only [e] <;> rfl
  · have hsearched := Run.refl.step (.miss hwait e)
    have hphase := phase_advance_same s i { s.cache with misses := s.cache.misses + 1 } .searched
    cases hresult : ((methods i).examine cancelled).2 with
    | ok r =>
        have hjudged := hsearched.step (.judge hphase ⟨cancelled, hresult⟩)
        refine ⟨_, _, hjudged.step (.put (phase_advance_same ..)), by simp, ?_, ?_⟩
        · simp only [e, hresult, advance, Function.update_idem]
          rfl
        · simp only [e, hresult]
          rfl
    | error x =>
        refine ⟨_, _, hsearched.step (.refuse hphase ⟨cancelled, hresult⟩), by simp, ?_, ?_⟩
        · simp only [e, hresult, advance, Function.update_idem]
        · simp only [e, hresult]
          rfl

end Session

namespace Verifier

variable {Fed : Method → Prop} {v : Verifier}

/-- The cache of a verifier, if it has one, is faithful. -/
def Faithful (Fed : Method → Prop) (v : Verifier) : Prop :=
  ∀ c, v.cache = some c → c.Faithful Fed

theorem faithful_new (config : Config) : (new config).Faithful Fed := by
  intro c hc
  unfold new at hc
  split at hc
  · cases hc
    exact Cache.faithful_empty
  · cases hc

theorem outcome_mapError (m : Method) (x : Except Fault Report) :
    outcome m (x.mapError .fault) = x.mapError .fault := by
  cases x <;> rfl

/-- A call which is not cancelled gives the verdict, and leaves the cache faithful. -/
theorem Faithful.verify (hsep : Fingerprint.Separates Fed) (hv : v.Faithful Fed) {m : Method}
    (hm : Fed m) : (v.verify false m).2.1 = m.verify.mapError .fault ∧
      (v.verify false m).2.2.Faithful Fed := by
  unfold Verifier.verify
  cases hc : v.cache with
  | none => exact ⟨outcome_mapError m m.verify, hv⟩
  | some c =>
      have hfaithful := hv c hc
      rcases c.get_cases (.of m) with ⟨r, hlookup, e⟩ | ⟨-, e⟩
      · simp only [e]
        rw [hfaithful _ r hlookup m hm rfl]
        exact ⟨rfl, fun c' hc' => Option.some.inj hc' ▸ hfaithful⟩
      · simp only [e]
        refine ⟨outcome_mapError m m.verify, fun c' hc' => ?_⟩
        rw [Method.examine_false] at hc'
        cases hresult : m.verify with
        | ok r =>
            rw [hresult] at hc'
            obtain rfl := Option.some.inj hc'
            exact Cache.Faithful.put hsep (c := { c with misses := _ }) hfaithful hm hresult
        | error f =>
            rw [hresult] at hc'
            obtain rfl := Option.some.inj hc'
            exact hfaithful

/-- A verifier gives the verdicts on methods in order, or the first fault. -/
theorem Faithful.verifyAll (hsep : Fingerprint.Separates Fed) (hv : v.Faithful Fed)
    {ms : List Method} (hms : ∀ m ∈ ms, Fed m) :
    (v.verifyAll false ms).2.1 = ms.mapM fun m => m.verify.mapError Refusal.fault := by
  have heach : (v.verifyEach false ms).2.1 = ms.map fun m => m.verify.mapError .fault := by
    induction ms generalizing v with
    | nil => rfl
    | cons m ms ih =>
        obtain ⟨hresult, hafter⟩ := hv.verify hsep (hms m List.mem_cons_self)
        rw [verifyEach, List.map_cons, ← hresult,
          ← ih hafter fun n hn => hms n (List.mem_cons_of_mem _ hn)]
  show (v.verifyEach false ms).2.1.mapM id = _
  rw [heach, List.mapM_map]
  rfl

end Verifier

/-! ### The shared cache -/

/-- **A shared cache is transparent**, if the fingerprints of the methods tell their elements apart.

However the steps of calls come to be mixed, from an empty cache on: a call which gives a report
gives the verdict on its method; one which ends without has stored nothing; what is kept for a
fingerprint was put there by a call, and is the verdict on every method with it; and there have been
as many hits and misses as look-ups.

So a batch, however many calls may be under way at a time, ends after three steps for each method at
most, cannot get stuck before that, and if no call was refused its reports are the verdicts in
order.  The verifier itself, which makes one call after the other, gives the same. -/
theorem cache_transparent {Fed : Method → Prop} (hsep : Fingerprint.Separates Fed) :
    (∀ {ι : Type} [DecidableEq ι] (methods : ι → Method), (∀ i, Fed (methods i)) →
      ∀ history s, Session.Run methods .initial history s →
        (∀ i r, s.phase i = .ended (.ok r) → (methods i).verify = .ok r) ∧
        (∀ i e, s.phase i = .ended (.error e) → (i, .put) ∉ history) ∧
        (∀ f r, s.cache.entries.lookup f = some r →
          (∃ i, (i, .put) ∈ history ∧ Fingerprint.of (methods i) = f) ∧
          ∀ m, Fed m → Fingerprint.of m = f → m.verify = .ok r) ∧
        s.cache.hits + s.cache.misses = history.countP (·.2 = .get)) ∧
    (∀ workers ms, (∀ m ∈ ms, Fed m) → ∀ history s, Session.Batch workers ms history s →
      history.length ≤ 3 * ms.length ∧
      ((∃ i, ∀ result, s.phase i ≠ .ended result) →
        ∃ act t, Session.Batch workers ms (history ++ [act]) t) ∧
      ((∀ i, ∃ r, s.phase i = .ended (.ok r)) →
        ∃ rs : List Report, ms.map Method.verify = rs.map .ok ∧
          ∀ i r, s.phase i = .ended (.ok r) ↔ rs[i.val]? = some r)) ∧
    ∀ config ms, (∀ m ∈ ms, Fed m) → ((Verifier.new config).verifyAll false ms).2.1 =
      ms.mapM fun m => m.verify.mapError Refusal.fault := by
  refine ⟨fun methods hfed history s h => ?_, fun workers ms hfed history s h => ?_,
    fun config ms hfed => (Verifier.faithful_new config).verifyAll hsep hfed⟩
  · have hsound := h.sound hsep hfed
    refine ⟨fun i r hi => ?_, fun i e hi => ?_, fun f r hl => ?_, hsound.counted⟩
    · have := hsound.justified i
      rwa [hi] at this
    · have := hsound.justified i
      rwa [hi] at this
    · exact ⟨hsound.origin f r hl, hsound.faithful f r hl⟩
  · exact ⟨h.length_le, h.exists_step, h.reports hsep hfed⟩

/-- A method like one which returns 7, under another name. -/
def echoing : Method := { Fingerprint.returning 7 with name := "echoing" }

theorem separates_echoing :
    Fingerprint.Separates fun m => m = Fingerprint.returning 7 ∨ m = echoing where
  standard := by
    have h := Fingerprint.standard_returning 7
    rintro m (rfl | rfl)
    · exact h
    · exact ⟨h.parameters, h.code, h.instructions⟩
  injective := by
    rintro m n (rfl | rfl) (rfl | rfl) _ <;> rfl

/-- Three calls, the last of them of the method with the other name. -/
def trio : Fin 3 → Method
  | 0 | 1 => Fingerprint.returning 7
  | 2 => echoing

/-- Two calls miss before either has verified its method, and then both put their reports.  The
third one is answered with what was found for another name. -/
theorem run_trio : ∃ s, Session.Run trio .initial [(0, .get), (1, .get), (1, .examine),
    (0, .examine), (0, .put), (1, .put), (2, .get)] s ∧ s.phase 2 = .ended (.ok .verified) ∧
    s.cache.hits = 1 := by
  have hends : (Fingerprint.returning 7).Ends (.ok .verified) := ⟨false, by decide +kernel⟩
  obtain ⟨s, hmissed, h₀, h₁, h₂, hhits⟩ : ∃ s,
      Session.Run trio .initial [(0, .get), (1, .get)] s ∧ s.phase 0 = .searched ∧
      s.phase 1 = .searched ∧ s.phase 2 = .waiting ∧ s.cache.hits = 0 :=
    ⟨_, .step (.step .refl (.miss rfl rfl)) (.miss rfl rfl), rfl, rfl, rfl, rfl⟩
  obtain ⟨t, hjudged, k₀, k₁, k₂, khits⟩ : ∃ t, Session.Run trio .initial
      [(0, .get), (1, .get), (1, .examine), (0, .examine)] t ∧
      t.phase 0 = .judged .verified ∧ t.phase 1 = .judged .verified ∧ t.phase 2 = .waiting ∧
      t.cache.hits = 0 :=
    ⟨_, .step (.step hmissed (.judge h₁ hends)) (.judge (by simpa using h₀) hends), by simp,
      by simp, by simpa using h₂, hhits⟩
  obtain ⟨u, hput, hwait, hlookup, uhits⟩ : ∃ u, Session.Run trio .initial
      [(0, .get), (1, .get), (1, .examine), (0, .examine), (0, .put), (1, .put)] u ∧
      u.phase 2 = .waiting ∧ u.cache.entries.lookup (.of echoing) = some .verified ∧
      u.cache.hits = 0 := by
    have hsecond : (t.advance 0 (t.cache.put (.of (trio 0)) .verified)
        (.ended (.ok .verified))).phase 1 = .judged .verified := by simpa using k₁
    exact ⟨_, .step (.step hjudged (.put k₀)) (.put hsecond), by simpa using k₂,
      Cache.lookup_put_same _ (.of (trio 1)) .verified, khits⟩
  rcases u.cache.get_cases (.of (trio 2)) with ⟨r, hr, e⟩ | ⟨hnone, -⟩
  · obtain rfl : r = .verified := Option.some.inj (hr.symm.trans hlookup)
    exact ⟨_, .step hput (.hit hwait e), by simp, congrArg (· + 1) uhits⟩
  · cases hnone.symm.trans hlookup

/-- One of three look-ups is a hit, and gives the verdict on a method which was never examined.  The
two methods have one sequence of elements between them, which is all that fingerprints have to tell
apart here. -/
theorem trio_transparent :
    Fingerprint.Separates (fun m => m = Fingerprint.returning 7 ∨ m = echoing) ∧
    ∃ s history, Session.Run trio .initial history s ∧ s.phase 2 = .ended (.ok .verified) ∧
      echoing.verify = .ok .verified ∧ s.cache.hits = 1 ∧ s.cache.misses = 2 := by
  obtain ⟨s, hrun, hend, hhits⟩ := run_trio
  have hfed : ∀ i, trio i = Fingerprint.returning 7 ∨ trio i = echoing
    | 0 | 1 => .inl rfl
    | 2 => .inr rfl
  obtain ⟨hreports, -, -, hcount⟩ := (cache_transparent separates_echoing).1 trio hfed _ s hrun
  have hlookups : s.cache.hits + s.cache.misses = 3 := hcount
  exact ⟨separates_echoing, s, _, hrun, hend, hreports 2 .verified hend, hhits, by omega⟩

end BytecodeVerifier
