import NexusVm.Eval

/-!
# Cycle profiling

`handle_profile_cycles` of `vm/src/eval.rs` over whole runs.  A label `^..#f` starts an
activation of the function `f` and a label `$..#f` ends one; the tracker keeps a clock and a
counter of open activations for each function.
-/

namespace NexusVm.Profile

variable {M P : Type}

inductive Mark
  | start
  | stop
deriving DecidableEq

/-- A label that was handled: when, and of which function. -/
structure ProfileEvent where
  clk : ℕ
  mark : Mark
  fnName : String

/-- What a label says. -/
def parseLabel (bytes : List U8) : Option (Mark × String) := do
  let label ← fromUtf8 bytes
  let fnName ← (label.splitOn "#").getLast?
  match label.toList.head? with
  | some '^' => some (.start, fnName)
  | some '$' => some (.stop, fnName)
  | _ => none

/-- The machine after the label is taken. -/
def withoutLabel (vm : NexusVM M P) : NexusVM M P := { vm with syscalls := vm.syscalls.getLabel.2 }

/-- The start or the end of a function. -/
def handleMark (B : Build) (vm : NexusVM M P) (fnName : String) :
    Mark → Except NexusVMError Unit × NexusVM M P
  | .start => startProfile B vm fnName
  | .stop => endProfile B vm fnName

/-- The label decides between the start and the end of a function. -/
theorem handleProfileCycles_eq {B : Build} {vm : NexusVM M P} {bytes : List U8} {mark : Mark}
    {fnName : String} (hbytes : vm.syscalls.getLabel.1 = some bytes)
    (hlabel : parseLabel bytes = some (mark, fnName)) :
    handleProfileCycles B vm = handleMark B (withoutLabel vm) fnName mark := by
  simp only [parseLabel, Option.bind_eq_bind, Option.bind_eq_some_iff] at hlabel
  obtain ⟨label, hutf8, name, hname, hmark⟩ := hlabel
  have hutf8' : vm.syscalls.getLabel.1.bind fromUtf8 = some label := by
    rw [hbytes]
    exact hutf8
  split at hmark
  · rename_i hhead
    cases hmark
    simp only [handleProfileCycles, hutf8', hname, hhead]
    rfl
  · rename_i hhead
    cases hmark
    simp only [handleProfileCycles, hutf8', hname, hhead]
    rfl
  · cases hmark

/-- The open activations of a function, when the outermost of them started, and the outermost
activations that have ended. -/
structure Account where
  depth : ℕ
  opened : ℕ
  activations : List (ℕ × ℕ)

namespace Account

def label (a : Account) (clk : ℕ) : Mark → Account
  | .start =>
      if a.depth = 0 then { a with depth := 1, opened := clk } else { a with depth := a.depth + 1 }
  | .stop =>
      if a.depth = 1 then { a with depth := 0, activations := a.activations ++ [(a.opened, clk)] }
      else { a with depth := a.depth - 1 }

/-- The cycles in the outermost activations. -/
def total (a : Account) : ℕ := (a.activations.map fun activation => activation.2 - activation.1).sum

end Account

/-- The account of a function after some labels. -/
def account (fnName : String) (events : List ProfileEvent) : Account :=
  events.foldl (fun a e => if e.fnName = fnName then a.label e.clk e.mark else a) ⟨0, 0, []⟩

/-- How many labels of a kind a function has. -/
def countOf (mark : Mark) (fnName : String) (events : List ProfileEvent) : ℕ :=
  events.countP fun e => decide (e.mark = mark ∧ e.fnName = fnName)

theorem account_append (fnName : String) (events : List ProfileEvent) (e : ProfileEvent) :
    account fnName (events ++ [e]) = if e.fnName = fnName then
      (account fnName events).label e.clk e.mark else account fnName events := by
  rw [account, account, List.foldl_append]
  rfl

theorem countOf_append (mark : Mark) (fnName : String) (events : List ProfileEvent)
    (e : ProfileEvent) : countOf mark fnName (events ++ [e]) =
      countOf mark fnName events + if e.mark = mark ∧ e.fnName = fnName then 1 else 0 := by
  rw [countOf, countOf, List.countP_append, List.countP_singleton]
  simp only [decide_eq_true_eq]

/-- Runs of a machine as the tracker sees them: between two labels the machine does anything
else.  What is allowed of a label can depend on the state before it. -/
inductive ProfileRun (B : Build) (allowed : NexusVM M P → Mark → String → Prop)
    (vm₀ : NexusVM M P) : List ProfileEvent → NexusVM M P → Prop
  | refl : ProfileRun B allowed vm₀ [] vm₀
  | other {events : List ProfileEvent} {vm : NexusVM M P} (vm' : NexusVM M P) :
      ProfileRun B allowed vm₀ events vm → vm'.cycleTracker = vm.cycleTracker →
      vm.cycleCount ≤ vm'.cycleCount → ProfileRun B allowed vm₀ events vm'
  | label {events : List ProfileEvent} {vm vm' : NexusVM M P} {bytes : List U8} {mark : Mark}
      {fnName : String} : ProfileRun B allowed vm₀ events vm →
      vm.syscalls.getLabel.1 = some bytes → parseLabel bytes = some (mark, fnName) →
      allowed vm mark fnName → handleProfileCycles B vm = (.ok (), vm') →
      ProfileRun B allowed vm₀ (events ++ [⟨vm.cycleCount, mark, fnName⟩]) vm'

/-- **When the tracker can take a label.**  A completed function is not ended, and it is started
again only at twice the cycles it has; the counter does not overflow. -/
def Steady (vm : NexusVM M P) (mark : Mark) (fnName : String) : Prop :=
  ∀ clk counter, vm.cycleTracker fnName = some (clk, counter) →
    (counter = 0 → mark = .start ∧ vm.cycleCount = 2 * clk) ∧
    (mark = .start → counter.toNat + 1 < 2 ^ 32)

/-- What the tracker has of a function with this account. -/
def Tracked (entry : Option (ℕ × U32)) (a : Account) (now : ℕ) : Prop :=
  match entry with
  | none => a = ⟨0, 0, []⟩
  | some (clk, counter) => counter.toNat = a.depth ∧ (a.depth = 0 → clk = a.total ∧
      a.activations ≠ [] ∧ clk ≤ now) ∧ (0 < a.depth → clk + a.total = a.opened ∧ a.opened ≤ now)

theorem Tracked.mono {entry : Option (ℕ × U32)} {a : Account} {now later : ℕ}
    (h : Tracked entry a now) (hle : now ≤ later) : Tracked entry a later := by
  cases entry with
  | none => exact h
  | some entry =>
      obtain ⟨hcounter, hclosed, hopen⟩ := h
      refine ⟨hcounter, fun hzero => ?_, fun hpos => ?_⟩
      · obtain ⟨hclk, hne, hnow⟩ := hclosed hzero
        exact ⟨hclk, hne, hnow.trans hle⟩
      · obtain ⟨hclk, hnow⟩ := hopen hpos
        exact ⟨hclk, hnow.trans hle⟩

theorem total_append (activations : List (ℕ × ℕ)) (depth depth' opened opened' s e : ℕ) :
    (Account.mk depth opened (activations ++ [(s, e)])).total =
      (Account.mk depth' opened' activations).total + (e - s) := by
  rw [Account.total, Account.total, List.map_append, List.sum_append, List.map_singleton,
    List.sum_singleton]

/-! ## One label and whole runs -/

section Label

variable {B : Build} {vm vm' : NexusVM M P} {fnName : String} {a : Account}

theorem add_one_eq (counter : U32) (h : counter.toNat + 1 < 2 ^ 32) :
    B.add counter 1 = .ok (counter + 1) ∧ (counter + 1).toNat = counter.toNat + 1 := by
  constructor
  · rw [Build.add, if_neg]
    simp
    omega
  · rw [BitVec.toNat_add]
    simp
    omega

theorem sub_one_eq {counter : U32} (h : counter ≠ 0) :
    B.sub counter 1 = .ok (counter - 1) ∧ (counter - 1).toNat = counter.toNat - 1 := by
  have hpos : 0 < counter.toNat := by
    rw [Nat.pos_iff_ne_zero]
    intro hzero
    exact h (BitVec.eq_of_toNat_eq hzero)
  constructor
  · rw [Build.sub, if_neg]
    simp
    omega
  · rw [BitVec.toNat_sub]
    have := counter.isLt
    simp
    omega

/-- The start of a function. -/
theorem startProfile_steady (h : Tracked (vm.cycleTracker fnName) a vm.cycleCount)
    (hsteady : Steady vm .start fnName) :
    ∃ entry, startProfile B vm fnName = (.ok (), { vm with
        cycleTracker := Function.update vm.cycleTracker fnName (some entry) }) ∧
      Tracked (some entry) (a.label vm.cycleCount .start) vm.cycleCount := by
  unfold startProfile
  cases hentry : vm.cycleTracker fnName with
  | none =>
      rw [hentry] at h
      obtain ⟨hadd, hone⟩ := add_one_eq (B := B) 0 (by decide)
      refine ⟨(vm.cycleCount, 0 + 1), ?_, ?_⟩
      · rw [Option.getD_none]
        dsimp only
        rw [hadd]
      · rw [show a = ⟨0, 0, []⟩ from h]
        exact ⟨hone, fun hzero => absurd hzero Nat.one_ne_zero, fun _ => ⟨rfl, le_refl _⟩⟩
  | some entry =>
      obtain ⟨clk, counter⟩ := entry
      rw [hentry] at h
      obtain ⟨hcounter, hclosed, hopen⟩ := h
      obtain ⟨hrestart, hbound⟩ := hsteady clk counter hentry
      obtain ⟨hadd, hone⟩ := add_one_eq (B := B) counter (hbound rfl)
      refine ⟨(clk, counter + 1), ?_, ?_⟩
      · rw [Option.getD_some]
        dsimp only
        rw [hadd]
      · rw [Account.label]
        split_ifs with hdepth
        · -- the completed cycles stand for the start
          obtain ⟨hclk, -⟩ := hclosed hdepth
          have hzero : counter = 0 := BitVec.eq_of_toNat_eq (hcounter.trans hdepth)
          refine ⟨by rw [hone, hcounter, hdepth], fun hone => absurd hone Nat.one_ne_zero,
            fun _ => ⟨?_, le_refl _⟩⟩
          show clk + a.total = vm.cycleCount
          rw [(hrestart hzero).2, ← hclk, two_mul]
        · obtain ⟨hclk, hnow⟩ := hopen (Nat.pos_of_ne_zero hdepth)
          exact ⟨by rw [hone, hcounter], fun hzero => absurd hzero (Nat.succ_ne_zero _),
            fun _ => ⟨hclk, hnow⟩⟩

/-- The end of a function that is not open. -/
theorem endProfile_closed (h : Tracked (vm.cycleTracker fnName) a vm.cycleCount)
    (hsteady : Steady vm .stop fnName) (hdepth : a.depth = 0) :
    endProfile B vm fnName = (.error .invalidProfileLabel, vm) := by
  unfold endProfile
  cases hentry : vm.cycleTracker fnName with
  | none => rfl
  | some entry =>
      obtain ⟨clk, counter⟩ := entry
      rw [hentry] at h
      have hzero : counter = 0 := BitVec.eq_of_toNat_eq (h.1.trans hdepth)
      exact absurd ((hsteady clk counter hentry).1 hzero).1 (fun hmark => nomatch hmark)

/-- The end of an open function. -/
theorem endProfile_open (h : Tracked (vm.cycleTracker fnName) a vm.cycleCount)
    (hdepth : a.depth ≠ 0) :
    ∃ entry, endProfile B vm fnName = (.ok (), { vm with
        cycleTracker := Function.update vm.cycleTracker fnName (some entry) }) ∧
      Tracked (some entry) (a.label vm.cycleCount .stop) vm.cycleCount := by
  unfold endProfile
  cases hentry : vm.cycleTracker fnName with
  | none =>
      rw [hentry] at h
      rw [show a = ⟨0, 0, []⟩ from h] at hdepth
      exact absurd rfl hdepth
  | some entry =>
      obtain ⟨clk, counter⟩ := entry
      rw [hentry] at h
      obtain ⟨hcounter, -, hopen⟩ := h
      obtain ⟨hclk, hnow⟩ := hopen (Nat.pos_of_ne_zero hdepth)
      have hne : counter ≠ 0 := by
        rintro rfl
        exact hdepth hcounter.symm
      obtain ⟨hsub, hone⟩ := sub_one_eq (B := B) hne
      have hzero : counter - 1 = 0 ↔ a.depth = 1 := by
        have hnat : (0 : U32).toNat = 0 := rfl
        rw [← BitVec.toNat_inj, hone, hcounter, hnat]
        omega
      refine ⟨(if counter - 1 = 0 then vm.cycleCount - clk else clk, counter - 1), ?_, ?_⟩
      · dsimp only
        rw [hsub]
      · rw [Account.label]
        split_ifs with hdone hlast hlast
        · -- the outermost activation ends
          refine ⟨by rw [hone, hcounter, hlast], fun _ => ⟨?_, List.append_ne_nil_of_right_ne_nil _
            (List.cons_ne_nil _ _), Nat.sub_le _ _⟩, fun hpos => absurd hpos (lt_irrefl 0)⟩
          rw [total_append _ 0 a.depth a.opened a.opened]
          show vm.cycleCount - clk = a.total + _
          omega
        · exact absurd (hzero.mp hdone) hlast
        · exact absurd (hzero.mpr hlast) hdone
        · refine ⟨by rw [hone, hcounter], fun hclosed => ?_, fun _ => ⟨hclk, hnow⟩⟩
          dsimp only at hclosed
          omega

end Label

section Runs

variable {B : Build} {vm₀ vm vm' : NexusVM M P} {events : List ProfileEvent}

/-- The invariant of the runs. -/
structure Inv (events : List ProfileEvent) (vm : NexusVM M P) : Prop where
  tracked : ∀ fnName, Tracked (vm.cycleTracker fnName) (account fnName events) vm.cycleCount
  counts : ∀ fnName, (account fnName events).depth + countOf .stop fnName events =
    countOf .start fnName events
  fresh : ∀ fnName, vm.cycleTracker fnName = none → countOf .start fnName events = 0

/-- Another entry for the function of the label. -/
theorem Inv.update {mark : Mark} {fnName : String} {entry : ℕ × U32} (h : Inv events vm)
    (htracked : Tracked (some entry) ((account fnName events).label vm.cycleCount mark)
      vm.cycleCount)
    (hopen : mark = .stop → (account fnName events).depth ≠ 0) :
    Inv (events ++ [⟨vm.cycleCount, mark, fnName⟩]) { withoutLabel vm with
      cycleTracker := Function.update vm.cycleTracker fnName (some entry) } := by
  constructor
  · intro g
    rw [account_append]
    dsimp only [withoutLabel]
    split_ifs with hg
    · subst hg
      rw [Function.update_self]
      exact htracked
    · rw [Function.update_of_ne (Ne.symm hg)]
      exact h.tracked g
  · intro g
    have hcounts := h.counts g
    rw [account_append, countOf_append, countOf_append]
    dsimp only
    by_cases hg : fnName = g
    · subst hg
      rw [if_pos rfl]
      cases mark with
      | start =>
          rw [if_neg (fun hmark => nomatch hmark.1), if_pos ⟨rfl, rfl⟩, Account.label]
          split_ifs with hdepth
          · dsimp only
            omega
          · dsimp only
            omega
      | stop =>
          have hpos := hopen rfl
          rw [if_pos ⟨rfl, rfl⟩, if_neg (fun hmark => nomatch hmark.1), Account.label]
          split_ifs with hlast
          · dsimp only
            omega
          · dsimp only
            omega
    · rw [if_neg hg, if_neg (fun hmark => hg hmark.2), if_neg (fun hmark => hg hmark.2)]
      exact hcounts
  · intro g hnone
    dsimp only [withoutLabel] at hnone
    by_cases hg : fnName = g
    · subst hg
      rw [Function.update_self] at hnone
      cases hnone
    · rw [Function.update_of_ne (Ne.symm hg)] at hnone
      rw [countOf_append, if_neg (fun hmark => hg hmark.2), h.fresh g hnone]

/-- **The next label of a steady run.**  It is an error exactly if it ends a function that is not
open. -/
theorem Inv.label {bytes : List U8} {mark : Mark} {fnName : String} (h : Inv events vm)
    (hbytes : vm.syscalls.getLabel.1 = some bytes) (hlabel : parseLabel bytes = some (mark, fnName))
    (hsteady : Steady vm mark fnName) :
    (handleProfileCycles B vm).1 =
        (if mark = .stop ∧ countOf .start fnName events = countOf .stop fnName events then
          .error .invalidProfileLabel else .ok ()) ∧
      ((handleProfileCycles B vm).1 = .ok () →
        Inv (events ++ [⟨vm.cycleCount, mark, fnName⟩]) (handleProfileCycles B vm).2) := by
  have hcounts := h.counts fnName
  have htracked : Tracked ((withoutLabel vm).cycleTracker fnName) (account fnName events)
      (withoutLabel vm).cycleCount := h.tracked fnName
  rw [handleProfileCycles_eq hbytes hlabel]
  cases mark with
  | start =>
      obtain ⟨entry, hrun, hentry⟩ := startProfile_steady (B := B) htracked hsteady
      rw [handleMark, hrun, if_neg (fun hstop => nomatch hstop.1)]
      exact ⟨rfl, fun _ => h.update hentry fun hstop => nomatch hstop⟩
  | stop =>
      rw [handleMark]
      by_cases hdepth : (account fnName events).depth = 0
      · rw [endProfile_closed htracked hsteady hdepth, if_pos ⟨rfl, by omega⟩]
        exact ⟨rfl, fun hok => nomatch hok⟩
      · obtain ⟨entry, hrun, hentry⟩ := endProfile_open (B := B) htracked hdepth
        rw [hrun, if_neg (fun hclosed => hdepth (by omega))]
        exact ⟨rfl, fun _ => h.update hentry fun _ => hdepth⟩

/-- The invariant of every steady run. -/
theorem inv_of_profileRun (h₀ : ∀ fnName, vm₀.cycleTracker fnName = none)
    (h : ProfileRun B Steady vm₀ events vm) : Inv events vm := by
  induction h with
  | refl =>
      constructor
      · intro fnName
        rw [h₀]
        rfl
      · exact fun _ => rfl
      · exact fun _ _ => rfl
  | other _ _ htracker hclock ih =>
      constructor
      · intro fnName
        rw [htracker]
        exact (ih.tracked fnName).mono hclock
      · exact ih.counts
      · intro fnName hnone
        rw [htracker] at hnone
        exact ih.fresh fnName hnone
  | label _ hbytes hlabel hsteady hrun ih =>
      have hnext := (ih.label (B := B) hbytes hlabel hsteady).2
      rw [hrun] at hnext
      exact hnext rfl

/-- What is asked of the tracker after some labels: no counter underflows, now or with the next
label, an end without a start is an error, and what is recorded for a function without an open
activation is the cycles of its outermost activations. -/
structure Profiled (B : Build) (events : List ProfileEvent) (vm : NexusVM M P) : Prop where
  counter : ∀ fnName clk counter, vm.cycleTracker fnName = some (clk, counter) →
    counter.toNat + countOf .stop fnName events = countOf .start fnName events
  next : ∀ bytes mark fnName, vm.syscalls.getLabel.1 = some bytes →
    parseLabel bytes = some (mark, fnName) → Steady vm mark fnName →
    (handleProfileCycles B vm).1 =
      if mark = .stop ∧ countOf .start fnName events = countOf .stop fnName events then
        .error .invalidProfileLabel else .ok ()
  recorded : ∀ fnName, 0 < countOf .start fnName events →
    countOf .start fnName events = countOf .stop fnName events →
    vm.cycleTracker fnName = some ((account fnName events).total, 0)

/-- **Steady runs are profiled.** -/
theorem profile_cycles (h₀ : ∀ fnName, vm₀.cycleTracker fnName = none)
    (h : ProfileRun B Steady vm₀ events vm) : Profiled B events vm := by
  have hinv := inv_of_profileRun h₀ h
  constructor
  · intro fnName clk counter hentry
    have htracked := hinv.tracked fnName
    rw [hentry] at htracked
    rw [htracked.1]
    exact hinv.counts fnName
  · intro bytes mark fnName hbytes hlabel hsteady
    exact (hinv.label hbytes hlabel hsteady).1
  · intro fnName hpos hbalanced
    have hcounts := hinv.counts fnName
    have hdepth : (account fnName events).depth = 0 := by omega
    have htracked := hinv.tracked fnName
    cases hentry : vm.cycleTracker fnName with
    | none => exact absurd (hinv.fresh fnName hentry) hpos.ne'
    | some entry =>
        obtain ⟨clk, counter⟩ := entry
        rw [hentry] at htracked
        obtain ⟨hcounter, hclosed, -⟩ := htracked
        have hzero : counter = 0 := BitVec.eq_of_toNat_eq (hcounter.trans hdepth)
        rw [(hclosed hdepth).1, hzero]

end Runs

/-! ## A function that is called again -/

section Small

/-- The labels of a function `f`. -/
def labelText : Mark → String
  | .start => "^#f"
  | .stop => "$#f"

def labelBytes : Mark → List U8
  | .start => [94, 35, 102]
  | .stop => [36, 35, 102]

theorem getLast_splitOn (mark : Mark) : ((labelText mark).splitOn "#").getLast? = some "f" := by
  have hsep : ("#" == "") = false := by decide +kernel
  rw [String.splitOn, hsep, if_neg Bool.false_ne_true]
  -- the first character is none, the second is the separator, the third ends the label
  rw [String.splitOnAux, if_neg (by cases mark <;> decide +kernel),
    if_neg (by cases mark <;> decide +kernel)]
  rw [String.splitOnAux, if_neg (by cases mark <;> decide +kernel),
    if_pos (by cases mark <;> decide +kernel)]
  dsimp only
  rw [if_pos (by decide +kernel)]
  rw [String.splitOnAux, if_neg (by cases mark <;> decide +kernel),
    if_neg (by cases mark <;> decide +kernel)]
  rw [String.splitOnAux, if_pos (by cases mark <;> decide +kernel)]
  cases mark <;> decide +kernel

theorem parseLabel_labelBytes (mark : Mark) : parseLabel (labelBytes mark) = some (mark, "f") := by
  have hutf8 : fromUtf8 (labelBytes mark) = some (labelText mark) := by
    cases mark <;> decide +kernel
  simp only [parseLabel, Option.bind_eq_bind, hutf8, Option.bind_some, getLast_splitOn]
  cases mark <;> rfl

/-- A machine with this entry for `f`. -/
def tracking (entry : Option (ℕ × U32)) (clk : ℕ) : NexusVM Unit Unit :=
  { NexusVM.new 0 () () with
    cycleCount := clk
    cycleTracker := Function.update (fun _ => none) "f" entry }

/-- The machine when it comes to a label of `f`. -/
def atLabel (vm : NexusVM Unit Unit) (clk : ℕ) (mark : Mark) : NexusVM Unit Unit :=
  { vm with cycleCount := clk, syscalls := { vm.syscalls with label := [labelBytes mark] } }

variable {B : Build} {allowed : NexusVM Unit Unit → Mark → String → Prop}
  {vm₀ : NexusVM Unit Unit} {events : List ProfileEvent} {entry : Option (ℕ × U32)}
  {clk₀ clk start : ℕ} {counter counter' : U32}

theorem tracking_entry (entry : Option (ℕ × U32)) (clk : ℕ) :
    (tracking entry clk).cycleTracker "f" = entry := by
  rw [tracking]
  exact Function.update_self "f" entry fun _ => none

theorem handle_start (hadd : B.add (entry.getD (clk, 0)).2 1 = .ok counter') :
    handleProfileCycles B (atLabel (tracking entry clk₀) clk .start) =
      (.ok (), tracking (some ((entry.getD (clk, 0)).1, counter')) clk) := by
  rw [handleProfileCycles_eq rfl (parseLabel_labelBytes .start)]
  show startProfile B (tracking entry clk) "f" = _
  unfold startProfile
  dsimp only
  have hclock : (tracking entry clk).cycleCount = clk := rfl
  rw [tracking_entry, hclock, hadd]
  simp only [tracking, Function.update_idem]

theorem handle_stop :
    handleProfileCycles B (atLabel (tracking (some (start, counter)) clk₀) clk .stop) =
      match B.sub counter 1 with
      | .error e => (.error e, tracking (some (start, counter)) clk)
      | .ok counter' =>
          (.ok (), tracking
            (some (if counter' = 0 then clk - start else start, counter')) clk) := by
  rw [handleProfileCycles_eq rfl (parseLabel_labelBytes .stop)]
  show endProfile B (tracking (some (start, counter)) clk) "f" = _
  unfold endProfile
  rw [tracking_entry]
  dsimp only
  cases B.sub counter 1 with
  | error e => rfl
  | ok counter' => simp only [tracking, Function.update_idem]

theorem run_start (clk : ℕ) (counter' : U32)
    (h : ProfileRun B allowed vm₀ events (tracking entry clk₀)) (hle : clk₀ ≤ clk)
    (hallowed : allowed (atLabel (tracking entry clk₀) clk .start) .start "f")
    (hadd : B.add (entry.getD (clk, 0)).2 1 = .ok counter') :
    ProfileRun B allowed vm₀ (events ++ [⟨clk, .start, "f"⟩])
      (tracking (some ((entry.getD (clk, 0)).1, counter')) clk) :=
  (h.other (atLabel (tracking entry clk₀) clk .start) rfl hle).label rfl
    (parseLabel_labelBytes .start) hallowed (handle_start hadd)

theorem run_stop (clk : ℕ) (counter' : U32)
    (h : ProfileRun B allowed vm₀ events (tracking (some (start, counter)) clk₀))
    (hle : clk₀ ≤ clk)
    (hallowed : allowed (atLabel (tracking (some (start, counter)) clk₀) clk .stop) .stop "f")
    (hsub : B.sub counter 1 = .ok counter') :
    ProfileRun B allowed vm₀ (events ++ [⟨clk, .stop, "f"⟩])
      (tracking (some (if counter' = 0 then clk - start else start, counter')) clk) := by
  apply (h.other (atLabel (tracking (some (start, counter)) clk₀) clk .stop) rfl hle).label
    rfl (parseLabel_labelBytes .stop) hallowed
  rw [handle_stop, hsub]

theorem steady_tracking {mark : Mark}
    (hentry : ∀ clk' counter, entry = some (clk', counter) →
      counter ≠ 0 ∧ counter.toNat + 1 < 2 ^ 32) :
    Steady (atLabel (tracking entry clk₀) clk mark) mark "f" := by
  intro clk' counter hsome
  have htracker : (atLabel (tracking entry clk₀) clk mark).cycleTracker "f" = entry :=
    tracking_entry entry clk₀
  obtain ⟨hne, hbound⟩ := hentry clk' counter (htracker.symm.trans hsome)
  exact ⟨fun hzero => absurd hzero hne, fun _ => hbound⟩

theorem tracking_none (clk : ℕ) (fnName : String) :
    (tracking none clk).cycleTracker fnName = none := by
  rw [tracking]
  exact congrFun (Function.update_eq_self "f" fun _ => none) fnName

/-- A recursive call. -/
theorem profile_cycles_nested : Profiled ⟨true⟩ [⟨0, .start, "f"⟩, ⟨2, .start, "f"⟩,
    ⟨5, .stop, "f"⟩, ⟨9, .stop, "f"⟩] (tracking (some (9, 0)) 9) := by
  apply profile_cycles (tracking_none 0)
  have h₀ : ProfileRun ⟨true⟩ Steady (tracking none 0) [] (tracking none 0) := .refl
  have h₁ := run_start 0 1 h₀ (le_refl _) (steady_tracking (fun _ _ h => nomatch h)) rfl
  have h₂ := run_start 2 2 h₁ (by decide) (steady_tracking (by
    rintro _ _ ⟨⟩
    decide)) rfl
  have h₃ := run_stop 5 1 h₂ (by decide) (steady_tracking (by
    rintro _ _ ⟨⟩
    decide)) rfl
  exact run_stop 9 0 h₃ (by decide) (steady_tracking (by
    rintro _ _ ⟨⟩
    decide)) rfl

/-- **A second call is not counted right**: `3` cycles are recorded for activations of `5` and
`2` cycles; and one end too many underflows the counter. -/
theorem second_call_miscounted :
    (∃ vm, ProfileRun ⟨true⟩ (fun _ _ _ => True) (tracking none 0) [⟨0, .start, "f"⟩,
        ⟨5, .stop, "f"⟩, ⟨6, .start, "f"⟩, ⟨8, .stop, "f"⟩] vm ∧
      vm.cycleTracker "f" = some (3, 0) ∧ (account "f" [⟨0, .start, "f"⟩, ⟨5, .stop, "f"⟩,
        ⟨6, .start, "f"⟩, ⟨8, .stop, "f"⟩]).total = 7) ∧
    (∃ vm, ProfileRun ⟨true⟩ (fun _ _ _ => True) (tracking none 0) [⟨0, .start, "f"⟩,
        ⟨5, .stop, "f"⟩] vm ∧
      (handleProfileCycles ⟨true⟩ (atLabel vm 6 .stop)).1 = .error .panic) ∧
    (∃ vm, ProfileRun ⟨false⟩ (fun _ _ _ => True) (tracking none 0) [⟨0, .start, "f"⟩,
        ⟨5, .stop, "f"⟩, ⟨6, .stop, "f"⟩] vm ∧
      vm.cycleTracker "f" = some (5, 0xffffffff)) := by
  have hcall : ∀ B : Build, ProfileRun B (fun _ _ _ => True) (tracking none 0)
      [⟨0, .start, "f"⟩, ⟨5, .stop, "f"⟩] (tracking (some (5, 0)) 5) := by
    intro B
    have hadd : B.add 0 1 = .ok 1 := (add_one_eq 0 (by decide)).1
    have hsub : B.sub 1 1 = .ok 0 := (sub_one_eq (by decide)).1
    have h₀ : ProfileRun B (fun _ _ _ => True) (tracking none 0) [] (tracking none 0) := .refl
    have h₁ := run_start 0 1 h₀ (le_refl _) trivial hadd
    exact run_stop 5 0 h₁ (by decide) trivial hsub
  refine ⟨⟨tracking (some (3, 0)) 8, ?_, tracking_entry _ _, rfl⟩,
    ⟨_, hcall ⟨true⟩, ?_⟩, ⟨tracking (some (5, 0xffffffff)) 6, ?_, tracking_entry _ _⟩⟩
  · have h₃ := run_start 6 1 (hcall ⟨true⟩) (by decide) trivial rfl
    exact run_stop 8 0 h₃ (by decide) trivial rfl
  · rw [handle_stop]
    rfl
  · exact run_stop 6 0xffffffff (hcall ⟨false⟩) (by decide) trivial rfl

end Small

end NexusVm.Profile
