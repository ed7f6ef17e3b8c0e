import LineBasic.Proofs.Debugger.Pursuit

/-!
# Runs to a breakpoint or a line

If the run from a pause comes to a stop, then a debugger that is called often enough, and given the
answers that it asks for, comes to it (`OnWay.soon`). So a run to a breakpoint or to a line pauses at the
first stop, neither earlier nor later (`run_stopsFirst`).
-/
namespace LineBasic

/-! ## Calls with answers -/

namespace Debugger

variable {V : Type}

/-- An `INPUT` waits, and everything else has been delivered. -/
def isAsking (d : Debugger V) : Bool :=
  d.machine.isWaiting && d.machine.events.isEmpty

variable [Viewer V]

/-- The debugger with the next answer, if it asks for one, and the answers that are left. -/
def supplied (s : Debugger V × List String) : Debugger V × List String :=
  match s.2 with
  | [] => s
  | text :: rest => if s.1.isAsking then ((s.1.submit text).2, rest) else s

/-- A call, before which the next answer is given if one is asked for. -/
def attend (steps : Nat) (s : Debugger V × List String) : Event × (Debugger V × List String) :=
  (((supplied s).1.untilEvent steps).1, ((supplied s).1.untilEvent steps).2, (supplied s).2)

/-- The turns of a debugger that is given the answers it asks for. -/
def attendedTurn (s : Debugger V × List String) : Turn (Debugger V × List String) :=
  if s.1.isAsking = true ∧ s.2 ≠ [] then .step (supplied s) else s.1.turn.map (·, s.2)

variable {d : Debugger V} {s : Debugger V × List String}

theorem supplied_of_not (h : ¬ (s.1.isAsking = true ∧ s.2 ≠ [])) : supplied s = s := by
  unfold supplied
  split
  · rfl
  · next hrest => exact if_neg (fun ha => h ⟨ha, by simp [hrest]⟩)

theorem attendedTurn_of_not (h : ¬ (s.1.isAsking = true ∧ s.2 ≠ [])) :
    attendedTurn s = s.1.turn.map (·, s.2) :=
  if_neg h

/-- A debugger that asks does nothing else. -/
theorem turn_of_isAsking (h : d.isAsking = true) : ∃ e, d.turn = .event e d := by
  rw [isAsking, Bool.and_eq_true, List.isEmpty_iff] at h
  have hw : d.machine.status = .waiting := by simpa [Machine.isWaiting] using h.1
  by_cases ha : d.active = true
  · exact ⟨_, turn_of_waiting ha h.2 hw⟩
  · rw [turn, if_neg ha, Machine.turn_of_waiting h.2 hw]
    exact ⟨_, rfl⟩

section

variable {P Q : Debugger V × List String → Prop} {k : Nat} {rest : List String}

/-- Where no answer is due, the next turn is one of the debugger's own. -/
theorem soon_cases (h : Turn.Soon attendedTurn P k (d, rest)) (hn : ¬ (d.isAsking = true ∧ rest ≠ [])) :
    P (d, rest) ∨ ∃ d' j, ((∃ e, d.turn = .event e d') ∨ d.turn = .step d') ∧ j < k ∧
      Turn.Soon attendedTurn P j (d', rest) := by
  have hturn := attendedTurn_of_not (s := (d, rest)) hn
  cases h with
  | now hP => exact .inl hP
  | event taken next =>
    right
    rw [hturn] at taken
    cases ht : d.turn with
    | event e d' =>
      rw [ht] at taken
      cases taken
      exact ⟨d', _, .inl ⟨_, rfl⟩, Nat.lt_succ_self _, next⟩
    | step d' =>
      rw [ht] at taken
      cases taken
  | step taken next =>
    right
    rw [hturn] at taken
    cases ht : d.turn with
    | event e d' =>
      rw [ht] at taken
      cases taken
    | step d' =>
      rw [ht] at taken
      cases taken
      exact ⟨d', _, .inr rfl, Nat.lt_succ_self _, next⟩

/-- A call comes to `P` and whatever `Q` it leads to from there, or does not lose ground. It gains some
if it has a budget and no answer is due. -/
theorem soon_untilEvent (hQ : ∀ d steps, P (d, rest) → Q ((untilEvent steps d).2, rest))
    (h : Turn.Soon attendedTurn P k (d, rest)) (steps : Nat) :
    Q ((d.untilEvent steps).2, rest) ∨
      ∃ j, j ≤ k ∧ (0 < steps → ¬ (d.isAsking = true ∧ rest ≠ []) → j < k) ∧
        Turn.Soon attendedTurn P j ((d.untilEvent steps).2, rest) := by
  induction k using Nat.strongRecOn generalizing d steps with
  | ind k ih =>
    rw [untilEvent_eq_run]
    by_cases hdue : d.isAsking = true ∧ rest ≠ []
    · obtain ⟨e, ht⟩ := turn_of_isAsking hdue.1
      rw [Turn.run_of_event ht]
      exact .inr ⟨k, Nat.le_refl k, fun _ hn => absurd hdue hn, h⟩
    · rcases soon_cases h hdue with hP | ⟨d', j, ⟨e, ht⟩ | ht, hj, hsoon⟩
      · rw [← untilEvent_eq_run]
        exact .inl (hQ d _ hP)
      · rw [Turn.run_of_event ht]
        exact .inr ⟨j, Nat.le_of_lt hj, fun _ _ => hj, hsoon⟩
      · cases steps with
        | zero =>
          rw [Turn.run_zero_of_step ht]
          exact .inr ⟨k, Nat.le_refl k, fun hpos => absurd hpos (Nat.lt_irrefl 0), h⟩
        | succ steps =>
          rw [Turn.run_succ_of_step ht, ← untilEvent_eq_run]
          refine (ih j hj hsoon steps).imp_right ?_
          rintro ⟨i, hi, -, hsoon⟩
          have hlt : i < k := Nat.lt_of_le_of_lt hi hj
          exact ⟨i, Nat.le_of_lt hlt, fun _ _ => hlt, hsoon⟩

/-- An attended call that has a budget comes to `Q` or closer. -/
theorem soon_attend {s : Debugger V × List String} (hP : ∀ s, P s → ¬ s.1.isAsking = true)
    (hQ : ∀ d rest steps, P (d, rest) → Q ((untilEvent steps d).2, rest)) {steps : Nat}
    (hpos : 0 < steps) (h : Turn.Soon attendedTurn P k s) :
    Q (attend steps s).2 ∨ ∃ j, j < k ∧ Turn.Soon attendedTurn P j (attend steps s).2 := by
  by_cases hdue : s.1.isAsking = true ∧ s.2 ≠ []
  · have hturn : attendedTurn s = .step (supplied s) := if_pos hdue
    cases h with
    | now hs => exact absurd hdue.1 (hP s hs)
    | event taken => cases hturn.symm.trans taken
    | step taken next =>
      cases hturn.symm.trans taken
      refine (soon_untilEvent (fun d => hQ d _) next steps).imp_right ?_
      rintro ⟨j, hj, -, hsoon⟩
      exact ⟨j, Nat.lt_succ_of_le hj, hsoon⟩
  · rw [attend, supplied_of_not hdue]
    refine (soon_untilEvent (fun d => hQ d _) h steps).imp_right ?_
    rintro ⟨j, -, hj, hsoon⟩
    exact ⟨j, hj hpos hdue, hsoon⟩

end

end Debugger

/-! ## Arrival -/

namespace Pursuit

variable {V : Type} {p : Pursuit} {answers more all : List String} {k l : Nat} {n : Machine}
  {d : Debugger V}

/-- The debugger has arrived with the first of all answers. -/
def There (p : Pursuit) (all : List String) (s : Debugger V × List String) : Prop :=
  ∃ answers, answers ++ s.2 = all ∧ p.Arrived answers s.1

/-- It has arrived just now: the run goes on, or the error that has ended it is still to be delivered. -/
def Done (p : Pursuit) (all : List String) (s : Debugger V × List String) : Prop :=
  p.There all s ∧ (s.1.machine.status = .running ∨ s.1.machine.events ≠ [])

theorem Done.not_isAsking {s : Debugger V × List String} (h : p.Done all s) :
    ¬ s.1.isAsking = true := by
  obtain ⟨⟨answers, -, harrived⟩, -⟩ := h
  simp [Debugger.isAsking, Machine.isWaiting, harrived.settled]

theorem OnWay.lt (h : p.OnWay answers k d) (hfirst : p.FirstStop (answers ++ more) l n) : k < l := by
  obtain ⟨hmiss, o, rest, ho, -⟩ := h.along
  exact hfirst.lt_of_misses (hmiss.append ho more)

variable [Viewer V]

/-- To deliver an event is a turn that changes nothing else. -/
theorem OnWay.soon_of_event (h : p.OnWay answers k d) {e : Event} {es : List Event}
    (hev : d.machine.events = e :: es) (hsoon : ∃ t, Turn.Soon Debugger.attendedTurn (p.Done all) t
      ({ d with machine := { d.machine with events := es } }, more)) :
    ∃ t, Turn.Soon Debugger.attendedTurn (p.Done all) t (d, more) := by
  obtain ⟨t, ht⟩ := hsoon
  have hturn : Debugger.attendedTurn (d, more) =
      .event e ({ d with machine := { d.machine with events := es } }, more) := by
    rw [Debugger.attendedTurn_of_not (by simp [Debugger.isAsking, hev]), Debugger.turn_of_cons h.active hev]
    rfl
  exact ⟨t + 1, .event hturn ht⟩

/-- Where no `INPUT` waits, the next step can be made. -/
theorem OnWay.soon_of_step (h : p.OnWay answers k d) (hw : d.machine.status ≠ .waiting)
    (hfirst : p.FirstStop (answers ++ more) l n)
    (hnext : ∀ {e : Debugger V}, p.OnWay answers (k + 1) e →
      ∃ t, Turn.Soon Debugger.attendedTurn (p.Done (answers ++ more)) t (e, more)) :
    ∃ t, Turn.Soon Debugger.attendedTurn (p.Done (answers ++ more)) t (d, more) := by
  induction hev : d.machine.events generalizing d with
  | cons e es ih =>
    exact h.soon_of_event hev
      (ih (d := { d with machine := { d.machine with events := es } }) (h.setMachine rfl) hw rfl)
  | nil =>
    have hr : d.machine.status = .running := by
      by_contra hr
      exact h.along.not_firstAt hr (fun hwait => absurd hwait hw) l hfirst
    have hturn : Debugger.attendedTurn (d, more) = .step (d.step p.goal p.force, more) := by
      rw [Debugger.attendedTurn_of_not (by simp [Debugger.isAsking, Machine.isWaiting, hr]),
        Debugger.turn_of_toward h.active hev hr h.pace]
      rfl
    rcases h.step hr with ⟨harrived, hs⟩ | hon
    · exact ⟨1, .step hturn (.now ⟨⟨answers, rfl, harrived⟩, hs⟩)⟩
    · obtain ⟨t, ht⟩ := hnext hon
      exact ⟨t + 1, .step hturn ht⟩

/-- An `INPUT` that waits is given the next answer. -/
theorem soon_of_answer (hw : d.machine.status = .waiting) (hev : d.machine.events = []) {text : String}
    (hsoon : ∃ t, Turn.Soon Debugger.attendedTurn (p.Done all) t
      ({ d with machine := d.machine.takeAnswer text }, more)) :
    ∃ t, Turn.Soon Debugger.attendedTurn (p.Done all) t (d, text :: more) := by
  obtain ⟨t, ht⟩ := hsoon
  have hwaiting : d.machine.isWaiting = true := by simp [Machine.isWaiting, hw]
  have hasking : d.isAsking = true := by simp [Debugger.isAsking, hwaiting, hev]
  have hturn : Debugger.attendedTurn (d, text :: more) =
      .step ({ d with machine := d.machine.takeAnswer text }, more) := by
    rw [Debugger.attendedTurn, if_pos ⟨hasking, List.cons_ne_nil text more⟩, Debugger.supplied]
    dsimp only
    rw [if_pos hasking, Debugger.submit_of_isWaiting hwaiting]
  exact ⟨t + 1, .step hturn ht⟩

/-- If there is a stop, some number of turns leads to it. -/
theorem OnWay.soon (h : p.OnWay answers k d) (hfirst : p.FirstStop (answers ++ more) l n) :
    ∃ t, Turn.Soon Debugger.attendedTurn (p.Done (answers ++ more)) t (d, more) := by
  -- by induction on the steps that are left, and where an answer is waited for on the events before it
  induction hleft : l - k generalizing k d answers more with
  | zero =>
    have := h.lt hfirst
    omega
  | succ left ih =>
    by_cases hw : d.machine.status = .waiting
    · induction hev : d.machine.events generalizing d with
      | cons e es ihes =>
        exact h.soon_of_event hev
          (ihes (d := { d with machine := { d.machine with events := es } }) (h.setMachine rfl) hw rfl)
      | nil =>
        cases more with
        | nil => exact absurd hfirst (h.along.not_firstAt (by simp [hw]) (fun _ => rfl) l)
        | cons text rest =>
          rw [List.append_cons] at hfirst ⊢
          have hanswered : p.OnWay (answers ++ [text]) k
              { d with machine := d.machine.takeAnswer text } :=
            ⟨h.active, h.pace, h.breakpoints, h.along.answer hw text⟩
          exact soon_of_answer hw hev (hanswered.soon_of_step (Machine.takeAnswer_status _ text) hfirst
            (fun hon => ih hon hfirst (by omega)))
    · exact h.soon_of_step hw hfirst (fun hon => ih hon hfirst (by omega))

theorem Done.untilEvent (h : p.Done all (d, more)) (steps : Nat) :
    p.There all ((d.untilEvent steps).2, more) := by
  obtain ⟨⟨answers, hall, harrived⟩, hs⟩ := h
  exact ⟨answers, hall, harrived.untilEvent hs steps⟩

/-- Enough attended calls lead to a stop that is some number of turns away. -/
theorem there_of_soon {t : Nat} {s : Debugger V × List String}
    (h : Turn.Soon Debugger.attendedTurn (p.Done all) t s) {ns : List Nat} (hlen : t ≤ ns.length)
    (hpos : ∀ n ∈ ns, 0 < n) : ∃ i, p.There all (called Debugger.attend (ns.take i) s) := by
  have hattend {k n : Nat} {s : Debugger V × List String} (hn : 0 < n)
      (hs : Turn.Soon Debugger.attendedTurn (p.Done all) k s) :
      p.There all (Debugger.attend n s).2 ∨
        ∃ j, j < k ∧ Turn.Soon Debugger.attendedTurn (p.Done all) j (Debugger.attend n s).2 :=
    Debugger.soon_attend (fun _ hd => hd.not_isAsking) (fun _ _ steps hd => hd.untilEvent steps) hn hs
  exact h.called (fun _ hd => hd.1) hattend hlen hpos

end Pursuit

/-! ## Runs to a stop -/

namespace Debugger

variable {V : Type} [Viewer V]

/-- The request leaves the program, the breakpoints and the run alone: it makes the debugger go on, or
answers, or is not heard. -/
def Drives (d : Debugger V) (r : Request) : Prop :=
  r.Spares d ∧ r ≠ .breakOff ∧ ∀ label, r ≠ .toggle label

/-- What follows a command leads to the first stop, and to no other. -/
structure StopsFirst (d₀ : Debugger V) (p : Pursuit) : Prop where
  /-- A pause comes after the steps to the first stop and those over the remarks there. -/
  pauses {answers : List String} {d : Debugger V} : EnRoute Drives d₀ answers d →
    d.isPaused = true →
    ∃ k n, p.FirstStop answers k n ∧
      d.machine.muted = (Nat.repeat Machine.step n.remarksAhead n).muted
  /-- If there is a stop with some more answers, then enough calls that have a budget lead to the pause
  there, if these answers are given. -/
  reaches {answers more : List String} {d : Debugger V} {k : Nat} {n : Machine} :
    EnRoute Drives d₀ answers d → p.FirstStop (answers ++ more) k n →
    ∃ calls, ∀ ns : List Nat, calls ≤ ns.length → (∀ n ∈ ns, 0 < n) →
      ∃ i, (called attend (ns.take i) (d, more)).1.isPaused = true ∧
        (called attend (ns.take i) (d, more)).1.machine.muted =
          (Nat.repeat Machine.step n.remarksAhead n).muted

theorem stage_of_drives {d₀ d : Debugger V} {p : Pursuit} {answers : List String}
    (h₀ : p.OnWay [] 0 d₀) (h : EnRoute Drives d₀ answers d) : p.Stage false answers d :=
  Pursuit.stage_of_onWay h₀ (fun _ _ hr =>
    ⟨hr.1, fun h => absurd h hr.2.1, fun label h => absurd h (hr.2.2 label)⟩) h

theorem stopsFirst_of_onWay {d₀ : Debugger V} {p : Pursuit} (h₀ : p.OnWay [] 0 d₀) :
    StopsFirst d₀ p := by
  constructor
  · intro answers e h hpaused
    exact ((stage_of_drives h₀ h).arrived_of_isPaused hpaused).first
  · intro answers more e k n h hfirst
    cases stage_of_drives h₀ h with
    | arrived harrived => exact ⟨0, fun ns _ _ => ⟨0, harrived.isPaused, harrived.machine hfirst⟩⟩
    | ended hover => exact absurd hfirst (hover.never rfl more k n)
    | onWay hon =>
      obtain ⟨t, ht⟩ := hon.soon hfirst
      refine ⟨t, fun ns hlen hpos => ?_⟩
      obtain ⟨i, given, hgiven, harrived⟩ := Pursuit.there_of_soon ht hlen hpos
      exact ⟨i, harrived.isPaused, harrived.machine (hgiven ▸ hfirst)⟩

theorem stopsFirst {d : Debugger V} (hp : d.isPaused = true) (goal : PausePoint) (force : Bool) :
    StopsFirst (d.pursue goal force) (d.errand goal force) :=
  stopsFirst_of_onWay (Pursuit.onWay_pursue hp goal force)

/-- A run to the next breakpoint and a run to a line pause at the first stop. -/
theorem run_stopsFirst {d : Debugger V} (hp : d.isPaused = true) :
    StopsFirst d.runToBreakpoint (d.errand .breakpoint false) ∧
      ∀ slot force, StopsFirst (d.runToSlot slot force) (d.errand (.slot slot) force) :=
  ⟨stopsFirst hp _ _, fun slot force => stopsFirst hp (.slot slot) force⟩

/-- A debugger that is paused in a loop, behind a remark that has a breakpoint. -/
def roundabout : Debugger Silent :=
  let m := ((((Machine.ofSeed 1).submit "10 REM").2.submit "20 INPUT A").2.submit "30 GOTO 10").2
  ((serve { machine := m, viewer := ⟨⟩ } .begin).2.serve (.toggle 10)).2

theorem reachable_roundabout : Reachable roundabout :=
  ((Reachable.fresh _ ((((Machine.Reachable.fresh (.ofSeed 1)).submit _).submit _).submit _)).serve .begin).serve _

/-- Once round: the line waits for an answer, and the remark is the first stop. -/
theorem runToBreakpoint_roundabout :
    Reachable roundabout ∧ ∃ (answers : List String) (d : Debugger Silent),
      EnRoute Drives roundabout.runToBreakpoint answers d ∧ answers = ["7"] ∧ d.isPaused = true ∧
      d.machine.cursor = 1 ∧ ∃ k n, (roundabout.errand .breakpoint false).FirstStop answers k n ∧
        d.machine.muted = (Nat.repeat Machine.step n.remarksAhead n).muted := by
  have h0 : EnRoute Drives roundabout.runToBreakpoint [] _ := .refl
  have h1 := h0.serve (.proceed 9) (by decide +kernel) (by decide +kernel) ⟨trivial, by simp, by simp⟩
  have h2 := h1.serve (.submit "7") (by decide +kernel) (by decide +kernel)
    ⟨.inl (by decide +kernel), by simp, by simp⟩
  have h3 := h2.serve (.proceed 9) (by decide +kernel) (by decide +kernel) ⟨trivial, by simp, by simp⟩
  have hstops := (run_stopsFirst (d := roundabout) (by decide +kernel)).1
  exact ⟨reachable_roundabout, _, _, h3, by decide +kernel, by decide +kernel, by decide +kernel,
    hstops.pauses h3 (by decide +kernel)⟩

end Debugger

end LineBasic
