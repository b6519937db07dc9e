import Ginkgo.Driver.Virtio

/-!
# Rejected virtio commands

A command is rejected at its first descriptor that is not free.  The descriptors before it have been
written by then; they are not announced to the device, so that nobody frees them.

## Main results

* `untouched_iff` — when a rejected command leaves the queue as it was.
* `virtio_reject_iff` — the same, with its consequence for whole runs: after such
  commands an empty queue accepts every command.
-/

namespace Ginkgo.Driver

/-- **A command that is rejected leaves the queue as it was.** -/
def Untouched (q : VirtioQueue) (c : Command) : Prop :=
  (c.send q).1 = false → (c.send q).2.desc = q.desc ∧ (c.send q).2.idx = q.idx ∧
    (c.send q).2.availRing = q.availRing ∧ (c.send q).2.availIdx = q.availIdx

/-- All descriptors of a command are free, or the first one is not. -/
def Whole (q : VirtioQueue) (c : Command) : Prop :=
  (q.desc q.idx).flags ≠ 0 ∨ ∀ s ∈ slots q.idx c.bufs, (q.desc s).flags = 0

instance (q : VirtioQueue) (c : Command) : Decidable (Whole q c) :=
  inferInstanceAs (Decidable (_ ∨ _))

/-- The descriptors of a command, with the flags that it adds. -/
def Command.descs (c : Command) : List (VringDesc × ℕ) :=
  c.requests.map (fun d => (d, descFNext)) ++ [(c.response, descFWrite)]

theorem Command.length_descs (c : Command) : c.descs.length = c.bufs.length := by
  simp [Command.descs, Command.bufs]

section

variable {q q' : VirtioQueue} {ds : List (VringDesc × ℕ)} {bufs : List (ℕ × ℕ)} {ok : Bool}

theorem virtioDescNew_taken {desc : VringDesc} {flags : ℕ} (h : (q.desc q.idx).flags ≠ 0) :
    virtioDescNew q desc flags = (false, q) := by
  rw [virtioDescNew]
  exact if_pos h

theorem virtioDescNew_free (h : (q.desc q.idx).flags = 0) (desc : VringDesc) (flags : ℕ) :
    ∃ q', virtioDescNew q desc flags = (true, q') := by
  rw [virtioDescNew]
  exact ⟨_, if_neg (not_not.mpr h)⟩

theorem virtioDescNew_next {desc : VringDesc} {flags : ℕ}
    (h : virtioDescNew q desc flags = (true, q')) :
    q'.idx = (q.idx + 1) % ringSize ∧ ∀ s, s ≠ q.idx → q'.desc s = q.desc s := by
  obtain ⟨-, rfl⟩ := virtioDescNew_ok h
  exact ⟨rfl, fun s hs => Function.update_of_ne hs _ _⟩

theorem descNewAll_frame (h : descNewAll q ds = (ok, q'))
    (hlen : ds.length = bufs.length) :
    ∀ s, s ∉ slots q.idx bufs → q'.desc s = q.desc s := by
  induction ds generalizing q bufs with
  | nil =>
    obtain rfl : q = q' := (Prod.mk.inj h).2
    exact fun _ _ => rfl
  | cons d ds ih =>
    cases bufs with
    | nil => simp at hlen
    | cons buf bufs =>
      intro s hs
      rw [slots, List.mem_cons, not_or] at hs
      rw [descNewAll] at h
      split at h
      next q₁ hq₁ =>
        obtain ⟨hidx, hdesc⟩ := virtioDescNew_next hq₁
        rw [ih h (by simpa using hlen) s (by rw [hidx]; exact hs.2)]
        exact hdesc s hs.1
      next q₁ hq₁ =>
        obtain rfl : q₁ = q' := (Prod.mk.inj h).2
        by_cases hfree : (q.desc q.idx).flags = 0
        · obtain ⟨q₂, hq₂⟩ := virtioDescNew_free hfree d.1 d.2
          cases hq₁.symm.trans hq₂
        · obtain rfl := (Prod.mk.inj ((virtioDescNew_taken hfree).symm.trans hq₁)).2
          rfl

theorem descNewAll_iff (hlen : ds.length = bufs.length) (hnodup : (slots q.idx bufs).Nodup) :
    (descNewAll q ds).1 = true ↔ ∀ s ∈ slots q.idx bufs, (q.desc s).flags = 0 := by
  induction ds generalizing q bufs with
  | nil =>
    cases bufs with
    | nil => simp [descNewAll, slots]
    | cons buf bufs => simp at hlen
  | cons d ds ih =>
    cases bufs with
    | nil => simp at hlen
    | cons buf bufs =>
      rw [slots, List.nodup_cons] at hnodup
      rw [slots, List.forall_mem_cons, descNewAll]
      by_cases hfree : (q.desc q.idx).flags = 0
      · obtain ⟨q₁, hq₁⟩ := virtioDescNew_free hfree d.1 d.2
        obtain ⟨hidx, hdesc⟩ := virtioDescNew_next hq₁
        rw [hq₁]
        dsimp only
        rw [ih (by simpa using hlen) (by rw [hidx]; exact hnodup.2), hidx]
        have hsame : ∀ s ∈ slots ((q.idx + 1) % ringSize) bufs, q₁.desc s = q.desc s := by
          intro s hs
          refine hdesc s ?_
          rintro rfl
          exact hnodup.1 hs
        constructor
        · intro h
          refine ⟨hfree, fun s hs => ?_⟩
          rw [← hsame s hs]
          exact h s hs
        · rintro ⟨-, h⟩ s hs
          rw [hsame s hs]
          exact h s hs
      · rw [virtioDescNew_taken hfree]
        exact iff_of_false (by simp) fun h => hfree h.1

theorem Command.nodup_slots (c : Command) (head : ℕ) : (slots head c.bufs).Nodup := by
  have h₁ : (head + 1) % ringSize ≠ head := by
    unfold ringSize
    omega
  have h₂ : ((head + 1) % ringSize + 1) % ringSize ≠ head := by
    unfold ringSize
    omega
  have h₃ : ((head + 1) % ringSize + 1) % ringSize ≠ (head + 1) % ringSize := by
    unfold ringSize
    omega
  cases c with
  | one response => simp [Command.bufs, Command.requests, slots]
  | two request response => simp [Command.bufs, Command.requests, slots, h₁.symm]
  | three request1 request2 response =>
    simp only [Command.bufs, Command.requests, List.cons_append, List.nil_append, List.map_cons,
      List.map_nil, slots]
    simp only [List.nodup_cons, List.mem_cons, List.not_mem_nil, or_false, not_or]
    exact ⟨⟨h₁.symm, h₂.symm⟩, h₃.symm, not_false, List.nodup_nil⟩

theorem Command.send_iff (c : Command) (q : VirtioQueue) :
    (c.send q).1 = true ↔ ∀ s ∈ slots q.idx c.bufs, (q.desc s).flags = 0 := by
  rw [← descNewAll_iff c.length_descs (c.nodup_slots q.idx), c.send_eq, sendCommand,
    ← Command.descs]
  cases descNewAll q c.descs with
  | mk ok q' => cases ok <;> rfl

theorem Command.send_frame (c : Command) {s : ℕ} (hs : s ∉ slots q.idx c.bufs) :
    (c.send q).2.desc s = q.desc s := by
  rw [c.send_eq, sendCommand, ← Command.descs]
  cases hnew : descNewAll q c.descs with
  | mk ok q' =>
    have hframe := descNewAll_frame hnew c.length_descs s hs
    cases ok <;> exact hframe

theorem Command.send_taken (c : Command) (h : (q.desc q.idx).flags ≠ 0) :
    c.send q = (false, q) := by
  cases c <;> simp only [Command.send, virtioSendCommand1, virtioSendCommand2, virtioSendCommand3,
    sendCommand, descNewAll, virtioDescNew_taken h]

theorem Command.send_wrote (c : Command) (h : (q.desc q.idx).flags = 0) :
    ((c.send q).2.desc q.idx).flags ≠ 0 := by
  obtain ⟨d, ds, hdescs, hflags⟩ : ∃ d ds, c.descs = d :: ds ∧ d.1.flags ||| d.2 ≠ 0 := by
    cases c with
    | one response => exact ⟨_, _, rfl, by simp [descFWrite]⟩
    | two request response => exact ⟨_, _, rfl, (flags_request _).1⟩
    | three request1 request2 response => exact ⟨_, _, rfl, (flags_request _).1⟩
  obtain ⟨q₁, hq₁⟩ := virtioDescNew_free h d.1 d.2
  have hfirst : (q₁.desc q.idx).flags ≠ 0 := by
    obtain ⟨-, rfl⟩ := virtioDescNew_ok hq₁
    dsimp only
    rw [Function.update_self]
    exact hflags
  rw [c.send_eq, sendCommand, ← Command.descs, hdescs, descNewAll, hq₁]
  dsimp only
  cases hrest : descNewAll q₁ ds with
  | mk ok q₂ =>
    have hkept := (descNewAll_keeps hrest).desc q.idx hfirst
    cases ok with
    | true =>
      show (q₂.desc q.idx).flags ≠ 0
      rwa [hkept]
    | false =>
      show (q₂.desc q.idx).flags ≠ 0
      rwa [hkept]

/-- **When a rejected command leaves the queue as it was.** -/
theorem untouched_iff (q : VirtioQueue) (c : Command) : Untouched q c ↔ Whole q c := by
  unfold Untouched Whole
  by_cases hfree : (q.desc q.idx).flags = 0
  · constructor
    · intro h
      refine Or.inr ((c.send_iff q).mp ?_)
      by_contra hok
      have hdesc := (h (Bool.eq_false_of_not_eq_true hok)).1
      have hwrote := c.send_wrote hfree
      rw [hdesc] at hwrote
      exact hwrote hfree
    · rintro (htaken | hall) hno
      · exact absurd hfree htaken
      · rw [(c.send_iff q).mpr hall] at hno
        cases hno
  · refine iff_of_true (fun _ => ?_) (Or.inl hfree)
    rw [c.send_taken hfree]
    exact ⟨rfl, rfl, rfl, rfl⟩

end

/-! ## Runs -/

namespace VirtioRun

variable {st st' : VirtioRun} {queued pend : List ℕ}

/-- Every descriptor that is not free belongs to a chain. -/
def Covered (st : VirtioRun) : Prop :=
  ∀ s, (st.q.desc s).flags ≠ 0 → ∃ c ∈ st.owned, s ∈ slots c.1 c.2

/-- Commands find all their descriptors free or already the first one not, and leave
`VRING_DESC_F_NEXT` in the last descriptor alone. -/
def Tidy (st : VirtioRun) : VirtioCall → Prop
  | .send c => c.response.flags &&& descFNext = 0 ∧ Whole st.q c
  | _ => True

instance (st : VirtioRun) (c : VirtioCall) : Decidable (st.Tidy c) :=
  match c with
  | .send _ => inferInstanceAs (Decidable (_ ∧ _))
  | .fetch | .complete _ | .irq | .next | .free | .ret => inferInstanceAs (Decidable True)

theorem Tidy.unchained {c : VirtioCall} (h : st.Tidy c) : st.Unchained c := by
  cases c with
  | send c => exact h.1
  | fetch | complete _ | irq | next | free | ret => trivial

theorem mem_owned {c : ℕ × List (ℕ × ℕ)} : c ∈ st.owned ↔
    (∃ head ∈ st.flight, (head, st.chain head) = c) ∨
      (∃ head idx, st.mode = .walk head idx ∧ c = (idx, st.rest)) ∨
      ∃ head flags next, st.mode = .callback head flags next ∧ c = (next, st.rest) := by
  rw [owned, List.mem_append, List.mem_map]
  cases st.mode <;> simp

section

variable (h : st.Covered)

include h

theorem Covered.congr (hdesc : st'.q.desc = st.q.desc) (howned : st'.owned = st.owned) :
    st'.Covered := by
  intro s hs
  rw [hdesc] at hs
  rw [howned]
  exact h s hs

theorem Covered.send (hinv : st.Inv queued pend) {c : Command} (hwhole : Whole st.q c) :
    (st.send c).Covered := by
  rcases hwhole with htaken | hfree
  · rw [VirtioRun.send, c.send_taken htaken]
    exact h
  have hok := (c.send_iff st.q).mpr hfree
  have hframe := fun s => c.send_frame (q := st.q) (s := s)
  rw [VirtioRun.send]
  cases hsend : c.send st.q with
  | mk ok q =>
    rw [hsend] at hok hframe
    obtain rfl : ok = true := hok
    have hhead : (st.q.desc st.q.idx).flags = 0 := hfree _ (c.head_mem_slots st.q.idx)
    intro s hs
    by_cases hin : s ∈ slots st.q.idx c.bufs
    · refine ⟨(st.q.idx, c.bufs), mem_owned.mpr (Or.inl ⟨st.q.idx, by simp, ?_⟩), hin⟩
      dsimp only
      rw [Function.update_self]
    · dsimp only at hs
      rw [hframe s hin] at hs
      obtain ⟨c', hc', hslot⟩ := h s hs
      refine ⟨c', mem_owned.mpr ?_, hslot⟩
      rcases mem_owned.mp hc' with ⟨head, hflight, rfl⟩ | hother
      · -- the head of a chain in flight is not the free descriptor
        have hne : head ≠ st.q.idx := by
          rintro rfl
          exact hinv.flags_ne hflight hhead
        refine Or.inl ⟨head, List.mem_append_left _ hflight, ?_⟩
        dsimp only
        rw [Function.update_of_ne hne]
      · exact Or.inr hother

theorem Covered.next (hmode : st.mode = .loop) (head : ℕ) :
    Covered { st with
      mode := .walk head head
      flight := st.flight.erase head
      calls := []
      rest := st.chain head } := by
  intro s hs
  obtain ⟨c, hc, hslot⟩ := h s hs
  refine ⟨c, mem_owned.mpr ?_, hslot⟩
  rcases mem_owned.mp hc with ⟨head', hflight, rfl⟩ | ⟨_, _, hwalk, -⟩ | ⟨_, _, _, hcall, -⟩
  · by_cases heq : head' = head
    · rw [heq]
      exact Or.inr (Or.inl ⟨head, head, rfl, rfl⟩)
    · exact Or.inl ⟨head', (List.mem_erase_of_ne heq).mpr hflight, rfl⟩
  · cases hmode.symm.trans hwalk
  · cases hmode.symm.trans hcall

theorem Covered.free (hinv : st.Inv queued pend) {head idx : ℕ} (hmode : st.mode = .walk head idx) :
    Covered { st with
      q := { st.q with desc := Function.update st.q.desc idx .clear }
      mode := .callback head (st.q.desc idx).flags (st.q.desc idx).next
      calls := st.calls ++ [((st.q.desc idx).addr, (st.q.desc idx).len)]
      rest := st.rest.tail } := by
  intro s hs
  have hne : s ≠ idx := by
    rintro rfl
    dsimp only at hs
    rw [Function.update_self] at hs
    exact hs rfl
  dsimp only at hs
  rw [Function.update_of_ne hne] at hs
  obtain ⟨c, hc, hslot⟩ := h s hs
  rcases mem_owned.mp hc with hflight | ⟨_, _, hwalk, rfl⟩ | ⟨_, _, _, hcall, -⟩
  · exact ⟨c, mem_owned.mpr (Or.inl hflight), hslot⟩
  · obtain ⟨rfl, rfl⟩ := HandlerMode.walk.inj (hmode.symm.trans hwalk)
    refine ⟨((st.q.desc idx).next, st.rest.tail),
      mem_owned.mpr (Or.inr (Or.inr ⟨head, _, _, rfl, rfl⟩)), ?_⟩
    have hw := hinv.owns.intact (idx, st.rest) hc
    dsimp only at hw hslot ⊢
    -- what is left of the chain begins where the cleared descriptor leads to
    cases hrest : st.rest with
    | nil =>
      rw [hrest] at hslot
      cases hslot
    | cons buf bufs =>
      rw [hrest] at hw hslot
      obtain ⟨-, -, -, hnext, -⟩ := hw
      have hin := (List.mem_cons.mp hslot).resolve_left hne
      rw [List.tail_cons]
      cases bufs with
      | nil => cases hin
      | cons b bs => rwa [hnext (by simp)]
  · cases hmode.symm.trans hcall

theorem Covered.finish (hinv : st.Inv queued pend) {head flags next : ℕ}
    (hmode : st.mode = .callback head flags next) (hlast : flags &&& descFNext = 0) :
    Covered { st with
      q := { st.q with ackUsedIdx := (st.q.ackUsedIdx + 1) % idxRange }
      mode := .loop
      freed := st.freed ++ [(head, st.calls)] } := by
  intro s hs
  obtain ⟨c, hc, hslot⟩ := h s hs
  rcases mem_owned.mp hc with hflight | ⟨_, _, hwalk, -⟩ | ⟨_, _, _, -, rfl⟩
  · exact ⟨c, mem_owned.mpr (Or.inl hflight), hslot⟩
  · cases hmode.symm.trans hwalk
  · rw [(hinv.goesOn head flags next hmode).mp hlast] at hslot
    cases hslot

theorem Covered.step (hinv : st.Inv queued pend) {c : VirtioCall} (hok : st.Tidy c)
    (hstep : st.step c = .ok st') : st'.Covered := by
  cases c with
  | send c =>
    have h' := h.send hinv hok.2
    rw [VirtioRun.step] at hstep
    split at hstep
    · cases hstep
      exact h'
    · cases hstep
      exact h'
    · cases hstep
  | fetch =>
    rw [VirtioRun.step] at hstep
    split_ifs at hstep
    cases hstep
    exact h
  | complete head =>
    rw [VirtioRun.step] at hstep
    split_ifs at hstep
    cases hstep
    exact h
  | irq =>
    rw [VirtioRun.step] at hstep
    split at hstep
    next hmode =>
      cases hstep
      exact h.congr rfl (by simp [owned, hmode])
    next => cases hstep
  | next =>
    rw [VirtioRun.step] at hstep
    split at hstep
    next hmode =>
      split_ifs at hstep
      · cases hstep
        exact h.congr rfl (by simp [owned, hmode])
      · cases hstep
        exact h.next hmode _
    next => cases hstep
  | free =>
    rw [VirtioRun.step] at hstep
    split at hstep
    next head idx hmode =>
      cases hstep
      exact h.free hinv hmode
    next => cases hstep
  | ret =>
    rw [VirtioRun.step] at hstep
    split at hstep
    next head flags next hmode =>
      split_ifs at hstep with hlast
      · cases hstep
        exact h.finish hinv hmode hlast
      · cases hstep
        exact h.congr rfl (by simp [owned, hmode])
    next => cases hstep

theorem Covered.free_of_empty (hflight : st.flight = []) (hcur : st.current = []) (s : ℕ) :
    (st.q.desc s).flags = 0 := by
  by_contra hs
  obtain ⟨c, hc, -⟩ := h s hs
  rcases mem_owned.mp hc with ⟨head, hhead, -⟩ | ⟨_, _, hwalk, -⟩ | ⟨_, _, _, hcall, -⟩
  · rw [hflight] at hhead
    cases hhead
  · simp [current, hwalk] at hcur
  · simp [current, hcall] at hcur

end

end VirtioRun

/-- **When a rejected command leaves the queue as it was**: if all its descriptors are free, so that
it is not rejected, or already the first one is not.  After a run of such commands an empty queue
accepts every command. -/
theorem virtio_reject_iff (q : VirtioQueue) (c : Command) :
    (Untouched q c ↔ Whole q c) ∧
      ∀ st, virtioRuns.ReachableVia VirtioRun.Tidy st → st.flight = [] → st.current = [] →
        (c.send st.q).1 = true := by
  refine ⟨untouched_iff q c, fun st hr hflight hcur => ?_⟩
  have hinv : (∃ queued pend, st.Inv queued pend) ∧ st.Covered := by
    apply hr.invariant (I := fun st => (∃ queued pend, VirtioRun.Inv st queued pend) ∧ st.Covered)
    · rintro st rfl
      exact ⟨⟨[], [], VirtioRun.inv_initial⟩, fun s hs => absurd rfl hs⟩
    · rintro st call st' ⟨⟨queued, pend, h⟩, hcov⟩ hok hstep
      exact ⟨h.step hok.unchained hstep, hcov.step h hok hstep⟩
  exact (c.send_iff st.q).mpr fun s _ => hinv.2.free_of_empty hflight hcur s

/-- A command with three descriptors. -/
def threeDescs : Command := .three ⟨4096, 8, 0, 0⟩ ⟨8192, 8, 0, 0⟩ ⟨12288, 8, 0, 0⟩

/-- The handler runs for `n` completed chains of three descriptors. -/
def handle (n : ℕ) : List VirtioCall :=
  .irq :: (List.replicate n [.next, .free, .ret, .free, .ret, .free, .ret]).flatten ++ [.next]

/-- The theorem applies to a queue whose only command has been handled. -/
theorem virtio_reject_iff_handled :
    ∃ st, virtioRuns.ReachableVia VirtioRun.Tidy st ∧ st.freed.length = 1 ∧
      (threeDescs.send st.q).1 = true := by
  obtain ⟨st, hr, hfreed, hflight, hcur⟩ := Lts.System.exists_reachableVia (M := virtioRuns)
    VirtioRun.Tidy (P := fun st => st.freed.length = 1 ∧ st.flight = [] ∧ st.current = [])
    ([.send threeDescs, .fetch, .complete 0] ++ handle 1) rfl (by decide +kernel)
  exact ⟨st, hr, hfreed, (virtio_reject_iff st.q threeDescs).2 st hr hflight hcur⟩

/-- The commands of a whole revolution of the ring, all completed. -/
def revolution : List VirtioCall :=
  List.replicate 42 .fetch ++ (List.range 42).map (fun i => .complete (3 * i)) ++ handle 42

/-- With two descriptors left, a command with three is rejected, after it has written the two.  They
are lost: after another revolution the queue is empty and rejects every command. -/
theorem virtio_reject_touches :
    (∃ st, virtioRuns.Reachable st ∧ st.q.idx = 126 ∧ (threeDescs.send st.q).1 = false ∧
      (threeDescs.send st.q).2.idx = 0 ∧ ((threeDescs.send st.q).2.desc 126).flags = 1) ∧
    ∃ st, virtioRuns.Reachable st ∧ st.flight = [] ∧ st.current = [] ∧
      (threeDescs.send st.q).1 = false := by
  constructor
  · exact Lts.System.exists_reachableVia (M := virtioRuns) (fun _ _ => True)
      (List.replicate 42 (.send threeDescs)) rfl (by decide +kernel)
  · exact Lts.System.exists_reachableVia (M := virtioRuns) (fun _ _ => True)
      (List.replicate 43 (.send threeDescs) ++ revolution ++
        List.replicate 42 (.send threeDescs) ++ revolution) rfl (by decide +kernel)

end Ginkgo.Driver
