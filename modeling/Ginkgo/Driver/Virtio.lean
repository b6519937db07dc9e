import Ginkgo.Lib.Lts
import Ginkgo.Lib.RingQueue
import Mathlib.Data.List.Perm.Subperm
import Mathlib.Data.List.Nodup

/-!
# Virtio queues

The driver's side of a virtio queue (`driver/virtio/virtio.c`): commands are written as chains of
descriptors into a table of 128 descriptors, announced in the available ring, and given back when
the device has put their heads into the used ring.  A descriptor of the table is free if its flags
are zero, and the interrupt handler frees the descriptors of a chain one by one, before it calls
`free_desc` for each of them.

## Main results

* `virtioRuns_exact` — every run does, if no caller sets `VRING_DESC_F_NEXT` itself
  in the last descriptor of a command.
* `virtio_response_next` — a run in which a caller does.
-/

namespace Ginkgo.Driver

open Function (update update_self update_of_ne)

/-! ## The queue -/

/-- `VIRTIO_RING_SIZE`. -/
def ringSize : ℕ := 2 ^ 7

/-- The range of the indices `avail->idx`, `used->idx` and `ack_used_idx`. -/
def idxRange : ℕ := 2 ^ 16

/-- `VRING_DESC_F_NEXT`. -/
def descFNext : ℕ := 1

/-- `VRING_DESC_F_WRITE`. -/
def descFWrite : ℕ := 2

/-- `struct vring_desc`. -/
structure VringDesc where
  /-- The address of the buffer. -/
  addr : ℕ
  /-- The length of the buffer. -/
  len : ℕ
  /-- The flags. -/
  flags : ℕ
  /-- The next descriptor of the chain. -/
  next : ℕ

/-- A cleared descriptor. -/
def VringDesc.clear : VringDesc := ⟨0, 0, 0, 0⟩

/-- `struct virtio_queue_t`, with the table and the rings that it points to. -/
structure VirtioQueue where
  /-- The table of descriptors. -/
  desc : ℕ → VringDesc
  /-- `avail->ring`. -/
  availRing : ℕ → ℕ
  /-- `avail->idx`. -/
  availIdx : ℕ
  /-- The heads in `used->ring`. -/
  usedRing : ℕ → ℕ
  /-- `used->idx`. -/
  usedIdx : ℕ
  /-- The next descriptor to use. -/
  idx : ℕ
  /-- How far the used ring was handled. -/
  ackUsedIdx : ℕ

/-- `virtio_desc_new`. -/
def virtioDescNew (q : VirtioQueue) (desc : VringDesc) (flags : ℕ) : Bool × VirtioQueue :=
  let desc := { desc with
    next := if flags &&& descFNext ≠ 0 then (q.idx + 1) % ringSize else 0
    flags := desc.flags ||| flags }
  if (q.desc q.idx).flags ≠ 0 then (false, q)
  else (true, { q with
    desc := update q.desc q.idx desc
    idx := (q.idx + 1) % ringSize })

/-- `virtio_avail_new`. -/
def virtioAvailNew (q : VirtioQueue) (idx : ℕ) : VirtioQueue :=
  { q with
    availRing := update q.availRing (q.availIdx % ringSize) idx
    availIdx := (q.availIdx + 1) % idxRange }

/-- Write descriptors, each with the flags that the command adds, up to the first that fails. -/
def descNewAll : VirtioQueue → List (VringDesc × ℕ) → Bool × VirtioQueue
  | q, [] => (true, q)
  | q, (desc, flags) :: rest =>
    match virtioDescNew q desc flags with
    | (true, q) => descNewAll q rest
    | (false, q) => (false, q)

/-- Write a chain of descriptors and announce its head.  If a descriptor in the middle cannot be
written, those before it stay in the table. -/
def sendCommand (q : VirtioQueue) (descs : List (VringDesc × ℕ)) : Bool × VirtioQueue :=
  match descNewAll q descs with
  | (true, q') => (true, virtioAvailNew q' q.idx)
  | (false, q') => (false, q')

/-- `virtio_send_command_1`. -/
def virtioSendCommand1 (q : VirtioQueue) (response : VringDesc) : Bool × VirtioQueue :=
  sendCommand q [(response, descFWrite)]

/-- `virtio_send_command_2`. -/
def virtioSendCommand2 (q : VirtioQueue) (request response : VringDesc) : Bool × VirtioQueue :=
  sendCommand q [(request, descFNext), (response, descFWrite)]

/-- `virtio_send_command_3`. -/
def virtioSendCommand3 (q : VirtioQueue) (request1 request2 response : VringDesc) :
    Bool × VirtioQueue :=
  sendCommand q [(request1, descFNext), (request2, descFNext), (response, descFWrite)]

/-! ## The transition system -/

/-- A call of one of the functions that send a command. -/
inductive Command
  /-- `virtio_send_command_1`. -/
  | one (response : VringDesc)
  /-- `virtio_send_command_2`. -/
  | two (request response : VringDesc)
  /-- `virtio_send_command_3`. -/
  | three (request1 request2 response : VringDesc)

namespace Command

/-- Call the function. -/
def send (q : VirtioQueue) : Command → Bool × VirtioQueue
  | .one response => virtioSendCommand1 q response
  | .two request response => virtioSendCommand2 q request response
  | .three request1 request2 response => virtioSendCommand3 q request1 request2 response

/-- The descriptors of the command except the last one. -/
def requests : Command → List VringDesc
  | .one _ => []
  | .two request _ => [request]
  | .three request1 request2 _ => [request1, request2]

/-- The last descriptor of the command. -/
def response : Command → VringDesc
  | .one response => response
  | .two _ response => response
  | .three _ _ response => response

/-- The buffers of the command. -/
def bufs (c : Command) : List (ℕ × ℕ) :=
  (c.requests ++ [c.response]).map fun desc => (desc.addr, desc.len)

end Command

/-- What `virtio_device_irq_handler` is doing. -/
inductive HandlerMode
  /-- It does not run. -/
  | idle
  /-- It is at the head of the outer loop. -/
  | loop
  /-- It is at the head of the inner loop at the descriptor `idx`, for the chain at `head`. -/
  | walk (head idx : ℕ)
  /-- It is in `free_desc`, for a descriptor with these flags and this successor. -/
  | callback (head flags next : ℕ)
deriving DecidableEq

/-- A queue, the device and the handler, with the history of the run. -/
structure VirtioRun where
  /-- The queue. -/
  q : VirtioQueue
  /-- The handler. -/
  mode : HandlerMode
  /-- How far the device has read the available ring. -/
  lastAvail : ℕ
  /-- The heads that the device has read and not completed. -/
  taken : List ℕ
  /-- The heads that were submitted and that the handler has not come to. -/
  flight : List ℕ
  /-- The buffers of the chain that was submitted last at a head. -/
  chain : ℕ → List (ℕ × ℕ)
  /-- The chains that the device has completed. -/
  completed : List (ℕ × List (ℕ × ℕ))
  /-- The heads that the handler has handled, with the calls of `free_desc` for each of them. -/
  freed : List (ℕ × List (ℕ × ℕ))
  /-- The calls of `free_desc` for the chain that the handler is at. -/
  calls : List (ℕ × ℕ)
  /-- The buffers of that chain that are not freed yet. -/
  rest : List (ℕ × ℕ)

/-- A step. -/
inductive VirtioCall
  /-- A command is sent, outside the handler or by `free_desc`. -/
  | send (c : Command)
  /-- The device reads a head from the available ring. -/
  | fetch
  /-- The device completes the chain at a head. -/
  | complete (head : ℕ)
  /-- The interrupt handler is entered. -/
  | irq
  /-- The handler compares the indices at the head of the outer loop. -/
  | next
  /-- The handler clears a descriptor and calls `free_desc`. -/
  | free
  /-- `free_desc` returns. -/
  | ret

namespace VirtioRun

/-- Send a command. -/
def send (st : VirtioRun) (c : Command) : VirtioRun :=
  match c.send st.q with
  | (true, q) => { st with
      q := q
      flight := st.flight ++ [st.q.idx]
      chain := update st.chain st.q.idx c.bufs }
  | (false, q) => { st with q := q }

/-- The effect of a step; there is none if the device or the handler cannot take it. -/
def step (st : VirtioRun) : VirtioCall → Except Unit VirtioRun
  | .send c =>
    match st.mode with
    | .idle => .ok (st.send c)
    | .callback _ _ _ => .ok (st.send c)
    | _ => .error ()
  | .fetch =>
    if st.lastAvail = st.q.availIdx then .error ()
    else .ok { st with
      lastAvail := (st.lastAvail + 1) % idxRange
      taken := st.taken ++ [st.q.availRing (st.lastAvail % ringSize)] }
  | .complete head =>
    if head ∈ st.taken then
      .ok { st with
        q := { st.q with
          usedRing := update st.q.usedRing (st.q.usedIdx % ringSize) head
          usedIdx := (st.q.usedIdx + 1) % idxRange }
        taken := st.taken.erase head
        completed := st.completed ++ [(head, st.chain head)] }
    else .error ()
  | .irq =>
    match st.mode with
    | .idle => .ok { st with mode := .loop }
    | _ => .error ()
  | .next =>
    match st.mode with
    | .loop =>
      if st.q.ackUsedIdx = st.q.usedIdx then .ok { st with mode := .idle }
      else
        let idx := st.q.usedRing (st.q.ackUsedIdx % ringSize)
        .ok { st with
          mode := .walk idx idx
          flight := st.flight.erase idx
          calls := []
          rest := st.chain idx }
    | _ => .error ()
  | .free =>
    match st.mode with
    | .walk head idx =>
      let temp := st.q.desc idx
      .ok { st with
        q := { st.q with desc := update st.q.desc idx .clear }
        mode := .callback head temp.flags temp.next
        calls := st.calls ++ [(temp.addr, temp.len)]
        rest := st.rest.tail }
    | _ => .error ()
  | .ret =>
    match st.mode with
    | .callback head flags next =>
      if flags &&& descFNext = 0 then
        .ok { st with
          q := { st.q with ackUsedIdx := (st.q.ackUsedIdx + 1) % idxRange }
          mode := .loop
          freed := st.freed ++ [(head, st.calls)] }
      else .ok { st with mode := .walk head next }
    | _ => .error ()

/-- The caller leaves it to the command to set `VRING_DESC_F_NEXT` in the last descriptor. -/
def Unchained (_ : VirtioRun) : VirtioCall → Prop
  | .send c => c.response.flags &&& descFNext = 0
  | _ => True

instance (st : VirtioRun) (c : VirtioCall) : Decidable (st.Unchained c) :=
  match c with
  | .send _ => inferInstanceAs (Decidable (_ = _))
  | .fetch => inferInstanceAs (Decidable True)
  | .complete _ => inferInstanceAs (Decidable True)
  | .irq => inferInstanceAs (Decidable True)
  | .next => inferInstanceAs (Decidable True)
  | .free => inferInstanceAs (Decidable True)
  | .ret => inferInstanceAs (Decidable True)

end VirtioRun

/-- The descriptors of a chain with these buffers. -/
def slots : ℕ → List (ℕ × ℕ) → List ℕ
  | _, [] => []
  | head, _ :: bufs => head :: slots ((head + 1) % ringSize) bufs

/-- The table holds a chain with these buffers. -/
def Written (desc : ℕ → VringDesc) : ℕ → List (ℕ × ℕ) → Prop
  | _, [] => True
  | head, buf :: bufs =>
    ((desc head).addr, (desc head).len) = buf ∧ (desc head).flags ≠ 0 ∧
      ((desc head).flags &&& descFNext = 0 ↔ bufs = []) ∧
      (bufs ≠ [] → (desc head).next = (head + 1) % ringSize) ∧
      Written desc ((head + 1) % ringSize) bufs

namespace VirtioRun

/-- The chains that own descriptors of the table: those in flight, and what is left of the chain
that the handler is at. -/
def owned (st : VirtioRun) : List (ℕ × List (ℕ × ℕ)) :=
  st.flight.map (fun head => (head, st.chain head)) ++
    match st.mode with
    | .walk _ idx => [(idx, st.rest)]
    | .callback _ _ next => [(next, st.rest)]
    | _ => []

/-- The chain that the handler is at. -/
def current (st : VirtioRun) : List (ℕ × List (ℕ × ℕ)) :=
  match st.mode with
  | .walk head _ => [(head, st.calls ++ st.rest)]
  | .callback head _ _ => [(head, st.calls ++ st.rest)]
  | _ => []

/-- The chains keep their descriptors, and the handler frees each of them once. -/
structure Exact (st : VirtioRun) : Prop where
  apart : (st.owned.flatMap fun c => slots c.1 c.2).Nodup
  intact : ∀ c ∈ st.owned, Written st.q.desc c.1 c.2
  /-- The handler handles the chains in the order in which they were completed.  For each of them
  it calls `free_desc` with the buffers that were submitted, in their order; for the chain it is
  at, with the first of them so far. -/
  handled : st.freed ++ st.current <+: st.completed
  goesOn : ∀ head flags next, st.mode = .callback head flags next →
    (flags &&& descFNext = 0 ↔ st.rest = [])
  left : st.current = [] → st.q.ackUsedIdx = st.q.usedIdx → st.freed = st.completed

end VirtioRun

/-- A queue that was set up, with cleared memory. -/
def VirtioRun.initial : VirtioRun :=
  { q := ⟨fun _ => .clear, fun _ => 0, 0, fun _ => 0, 0, 0, 0⟩
    mode := .idle
    lastAvail := 0
    taken := []
    flight := []
    chain := fun _ => []
    completed := []
    freed := []
    calls := []
    rest := [] }

/-- The runs of a queue. -/
def virtioRuns : Lts.System VirtioRun VirtioCall Unit where
  init st := st = .initial
  step := VirtioRun.step

/-- A caller sets `VRING_DESC_F_NEXT` in the only descriptor of a command.  The handler goes on with
the cleared descriptor `0`, and calls `free_desc` a second time. -/
theorem virtio_response_next :
    ∃ st, virtioRuns.Reachable st ∧ st.completed = [(0, [(4096, 8)])] ∧
      st.freed = [(0, [(4096, 8), (0, 0)])] :=
  Lts.System.exists_reachableVia (M := virtioRuns) (fun _ _ => True)
    [.send (.one ⟨4096, 8, 1, 0⟩), .fetch, .complete 0, .irq, .next, .free, .ret, .free, .ret,
      .next]
    rfl (by decide)

/-! ## Chains in the table -/

section Chains

variable {desc desc' : ℕ → VringDesc} {head : ℕ} {buf : ℕ × ℕ} {bufs : List (ℕ × ℕ)}
  {cs cs' : List (ℕ × List (ℕ × ℕ))}

theorem slots_lt (hhead : bufs ≠ [] → head < ringSize) : ∀ s ∈ slots head bufs, s < ringSize := by
  induction bufs generalizing head with
  | nil => simp [slots]
  | cons buf bufs ih =>
    intro s hs
    cases List.mem_cons.mp hs with
    | inl he =>
      rw [he]
      exact hhead (by simp)
    | inr hin => exact ih (fun _ => Nat.mod_lt _ (by decide)) s hin

theorem Written.congr (h : Written desc head bufs)
    (hsame : ∀ s ∈ slots head bufs, desc' s = desc s) : Written desc' head bufs := by
  induction bufs generalizing head with
  | nil => trivial
  | cons buf bufs ih =>
    obtain ⟨hbuf, hflags, hlast, hnext, hrest⟩ := h
    rw [slots] at hsame
    rw [Written, hsame head (by simp)]
    exact ⟨hbuf, hflags, hlast, hnext,
      ih hrest fun s hs => hsame s (List.mem_cons_of_mem head hs)⟩

theorem Written.flags_ne (h : Written desc head bufs) :
    ∀ s ∈ slots head bufs, (desc s).flags ≠ 0 := by
  induction bufs generalizing head with
  | nil => simp [slots]
  | cons buf bufs ih =>
    obtain ⟨-, hflags, -, -, hrest⟩ := h
    intro s hs
    cases List.mem_cons.mp hs with
    | inl he => rwa [he]
    | inr hin => exact ih hrest s hin

/-- The chains `cs` own their descriptors. -/
structure Owns (desc : ℕ → VringDesc) (cs : List (ℕ × List (ℕ × ℕ))) : Prop where
  apart : (cs.flatMap fun c => slots c.1 c.2).Nodup
  intact : ∀ c ∈ cs, Written desc c.1 c.2
  below : ∀ c ∈ cs, c.2 ≠ [] → c.1 < ringSize

namespace Owns

theorem perm (h : Owns desc cs) (hp : cs.Perm cs') : Owns desc cs' where
  apart := (hp.flatMap_right _).nodup_iff.mp h.apart
  intact := fun c hc => h.intact c (hp.mem_iff.mpr hc)
  below := fun c hc => h.below c (hp.mem_iff.mpr hc)

theorem frame (h : Owns desc cs) (hsame : ∀ s, (desc s).flags ≠ 0 → desc' s = desc s) :
    Owns desc' cs where
  apart := h.apart
  intact := fun c hc => (h.intact c hc).congr fun s hs =>
    hsame s ((h.intact c hc).flags_ne s hs)
  below := h.below

theorem cons (h : Owns desc cs) (hsame : ∀ s, (desc s).flags ≠ 0 → desc' s = desc s)
    (hhead : head < ringSize) (hnew : Written desc' head bufs) (hnodup : (slots head bufs).Nodup)
    (hfree : ∀ s ∈ slots head bufs, (desc s).flags = 0) : Owns desc' ((head, bufs) :: cs) := by
  have hold := h.frame hsame
  refine ⟨?_, ?_, ?_⟩
  · rw [List.flatMap_cons, List.nodup_append']
    refine ⟨hnodup, h.apart, ?_⟩
    intro s hs hsold
    obtain ⟨c, hc, hsc⟩ := List.mem_flatMap.mp hsold
    exact (h.intact c hc).flags_ne s hsc (hfree s hs)
  · intro c hc
    cases List.mem_cons.mp hc with
    | inl he =>
      rw [he]
      exact hnew
    | inr hin => exact hold.intact c hin
  · intro c hc
    cases List.mem_cons.mp hc with
    | inl he =>
      rw [he]
      exact fun _ => hhead
    | inr hin => exact h.below c hin

theorem free (h : Owns desc ((head, buf :: bufs) :: cs)) :
    Owns (update desc head .clear) (((desc head).next, bufs) :: cs) := by
  have hnodup := h.apart
  rw [List.flatMap_cons, slots, List.cons_append, List.nodup_cons] at hnodup
  obtain ⟨hnot, hrest⟩ := hnodup
  have hw := h.intact _ List.mem_cons_self
  obtain ⟨-, -, -, hnext, hwrest⟩ := hw
  have hslots : slots (desc head).next bufs = slots ((head + 1) % ringSize) bufs := by
    cases bufs with
    | nil => rfl
    | cons b bs => rw [hnext (by simp)]
  have hne : ∀ s ∈ slots ((head + 1) % ringSize) bufs ++ cs.flatMap fun c => slots c.1 c.2,
      update desc head .clear s = desc s := by
    intro s hs
    apply update_of_ne
    intro he
    exact hnot (he ▸ hs)
  refine ⟨?_, ?_, ?_⟩
  · rwa [List.flatMap_cons, hslots]
  · intro c hc
    cases List.mem_cons.mp hc with
    | inl he =>
      rw [he]
      cases bufs with
      | nil => trivial
      | cons b bs =>
        dsimp only
        rw [hnext (by simp)]
        exact hwrest.congr fun s hs => hne s (List.mem_append_left _ hs)
    | inr hin =>
      apply (h.intact c (List.mem_cons_of_mem _ hin)).congr
      intro s hs
      exact hne s (List.mem_append_right _ (List.mem_flatMap.mpr ⟨c, hin, hs⟩))
  · intro c hc
    cases List.mem_cons.mp hc with
    | inl he =>
      rw [he]
      intro hb
      dsimp only
      rw [hnext hb]
      exact Nat.mod_lt _ (by decide)
    | inr hin => exact h.below c (List.mem_cons_of_mem _ hin)

theorem length_le (h : Owns desc cs) (hne : ∀ c ∈ cs, c.2 ≠ []) : cs.length ≤ ringSize := by
  have hlen : cs.length ≤ (cs.flatMap fun c => slots c.1 c.2).length := by
    clear h
    induction cs with
    | nil => simp
    | cons c cs ih =>
      have htail := ih fun c' hc' => hne c' (List.mem_cons_of_mem c hc')
      have hpos : 1 ≤ (slots c.1 c.2).length := by
        cases hc : c.2 with
        | nil => exact absurd hc (hne c List.mem_cons_self)
        | cons b bs => simp [slots]
      rw [List.flatMap_cons, List.length_append, List.length_cons]
      omega
  have hsub : (cs.flatMap fun c => slots c.1 c.2) ⊆ List.range ringSize := by
    intro s hs
    obtain ⟨c, hc, hsc⟩ := List.mem_flatMap.mp hs
    exact List.mem_range.mpr (slots_lt (h.below c hc) s hsc)
  have hcount := (List.Nodup.subperm h.apart hsub).length_le
  rw [List.length_range] at hcount
  exact hlen.trans hcount

end Owns

end Chains

/-! ## Sending a command -/

variable {flags : ℕ}

section Send

variable {q q' : VirtioQueue} {ok : Bool}

/-- What writing descriptors leaves alone. -/
structure Keeps (q q' : VirtioQueue) : Prop where
  desc : ∀ s, (q.desc s).flags ≠ 0 → q'.desc s = q.desc s
  idx : q.idx < ringSize → q'.idx < ringSize
  avail : q'.availRing = q.availRing ∧ q'.availIdx = q.availIdx
  used : q'.usedRing = q.usedRing ∧ q'.usedIdx = q.usedIdx ∧ q'.ackUsedIdx = q.ackUsedIdx

theorem Keeps.refl (q : VirtioQueue) : Keeps q q :=
  ⟨fun _ _ => rfl, id, ⟨rfl, rfl⟩, rfl, rfl, rfl⟩

theorem virtioDescNew_ok {desc : VringDesc} (h : virtioDescNew q desc flags = (true, q')) :
    (q.desc q.idx).flags = 0 ∧ q' = { q with
      desc := update q.desc q.idx { desc with
        next := if flags &&& descFNext ≠ 0 then (q.idx + 1) % ringSize else 0
        flags := desc.flags ||| flags }
      idx := (q.idx + 1) % ringSize } := by
  rw [virtioDescNew] at h
  by_cases hfree : (q.desc q.idx).flags = 0
  · simp only [hfree, ne_eq, not_true_eq_false, if_false, Prod.mk.injEq, true_and] at h
    exact ⟨hfree, h.symm⟩
  · simp [hfree] at h

theorem virtioDescNew_keeps {desc : VringDesc} (h : virtioDescNew q desc flags = (ok, q')) :
    Keeps q q' := by
  cases ok with
  | true =>
    obtain ⟨hfree, rfl⟩ := virtioDescNew_ok h
    refine ⟨?_, fun _ => Nat.mod_lt _ (by decide), ⟨rfl, rfl⟩, rfl, rfl, rfl⟩
    intro s hs
    apply update_of_ne
    intro he
    rw [he] at hs
    exact hs hfree
  | false =>
    rw [virtioDescNew] at h
    by_cases hfree : (q.desc q.idx).flags = 0
    · simp [hfree] at h
    · rw [if_pos hfree] at h
      obtain rfl : q = q' := (Prod.mk.inj h).2
      exact .refl q

theorem descNewAll_keeps {descs : List (VringDesc × ℕ)} (h : descNewAll q descs = (ok, q')) :
    Keeps q q' := by
  induction descs generalizing q with
  | nil =>
    obtain rfl : q = q' := (Prod.mk.inj h).2
    exact .refl q
  | cons d descs ih =>
    rw [descNewAll] at h
    split at h
    next q₁ hq₁ =>
      have h₁ := virtioDescNew_keeps hq₁
      have h₂ := ih h
      refine ⟨?_, fun hi => h₂.idx (h₁.idx hi), ?_, ?_⟩
      · intro s hs
        have hs₁ := h₁.desc s hs
        rw [← hs₁]
        apply h₂.desc
        rwa [hs₁]
      · rw [h₂.avail.1, h₂.avail.2]
        exact h₁.avail
      · rw [h₂.used.1, h₂.used.2.1, h₂.used.2.2]
        exact h₁.used
    next q₁ hq₁ =>
      obtain rfl : q₁ = q' := (Prod.mk.inj h).2
      exact virtioDescNew_keeps hq₁

theorem flags_request (flags : ℕ) :
    (flags ||| descFNext) ≠ 0 ∧ (flags ||| descFNext) &&& descFNext ≠ 0 := by
  have hand : (flags ||| descFNext) &&& descFNext = descFNext := by
    rw [Nat.and_or_distrib_right, Nat.and_self]
    apply Nat.eq_of_testBit_eq
    intro i
    rw [Nat.testBit_or, Nat.testBit_and]
    cases flags.testBit i <;> simp
  refine ⟨?_, by simp [descFNext]⟩
  intro he
  rw [he] at hand
  simp [descFNext] at hand

theorem flags_response (h : flags &&& descFNext = 0) :
    (flags ||| descFWrite) ≠ 0 ∧ (flags ||| descFWrite) &&& descFNext = 0 := by
  refine ⟨by simp [descFWrite], ?_⟩
  rw [Nat.and_or_distrib_right, h]
  decide

theorem descNewAll_chain (requests : List VringDesc) {response : VringDesc}
    (hresp : response.flags &&& descFNext = 0)
    (h : descNewAll q (requests.map (fun d => (d, descFNext)) ++ [(response, descFWrite)]) =
      (true, q')) :
    Written q'.desc q.idx ((requests ++ [response]).map fun d => (d.addr, d.len)) ∧
      (slots q.idx ((requests ++ [response]).map fun d => (d.addr, d.len))).Nodup ∧
      ∀ s ∈ slots q.idx ((requests ++ [response]).map fun d => (d.addr, d.len)),
        (q.desc s).flags = 0 := by
  induction requests generalizing q with
  | nil =>
    simp only [List.map_nil, List.nil_append, descNewAll] at h
    split at h
    next q₁ hq₁ =>
      obtain rfl : q₁ = q' := (Prod.mk.inj h).2
      obtain ⟨hfree, rfl⟩ := virtioDescNew_ok hq₁
      obtain ⟨hne, hnext⟩ := flags_response hresp
      simp [Written, slots, hfree, hne, hnext]
    next => simp at h
  | cons d requests ih =>
    simp only [List.map_cons, List.cons_append, descNewAll] at h
    split at h
    next q₁ hq₁ =>
      obtain ⟨hw, hnodup, hfree₁⟩ := ih h
      have hkeeps := descNewAll_keeps h
      obtain ⟨hfree, rfl⟩ := virtioDescNew_ok hq₁
      obtain ⟨hne, hnext⟩ := flags_request d.flags
      dsimp only at hw hnodup hfree₁ hkeeps
      have hdesc := hkeeps.desc q.idx (by simpa using hne)
      dsimp only at hdesc
      rw [update_self] at hdesc
      have hnot : ∀ s ∈ slots ((q.idx + 1) % ringSize)
          ((requests ++ [response]).map fun d => (d.addr, d.len)), s ≠ q.idx := by
        intro s hs he
        have hzero := hfree₁ s hs
        rw [he, update_self] at hzero
        exact hne hzero
      simp only [List.cons_append, List.map_cons, slots, Written]
      refine ⟨⟨?_, ?_, ?_, ?_, hw⟩, ?_, ?_⟩
      · rw [hdesc]
      · rw [hdesc]
        exact hne
      · rw [hdesc]
        simp [hnext]
      · intro _
        rw [hdesc]
        simp [descFNext]
      · rw [List.nodup_cons]
        exact ⟨fun hin => hnot _ hin rfl, hnodup⟩
      · intro s hs
        cases List.mem_cons.mp hs with
        | inl he => rwa [he]
        | inr hin =>
          have hzero := hfree₁ s hin
          rwa [update_of_ne (hnot s hin)] at hzero
    next => simp at h

theorem Command.head_mem_slots (c : Command) (head : ℕ) : head ∈ slots head c.bufs := by
  cases c <;> simp [Command.bufs, Command.requests, slots]

theorem Command.send_eq (c : Command) (q : VirtioQueue) :
    c.send q = sendCommand q (c.requests.map (fun d => (d, descFNext)) ++
      [(c.response, descFWrite)]) := by
  cases c with
  | one response => rfl
  | two request response => rfl
  | three request1 request2 response => rfl

end Send

/-! ## The invariant -/

variable {q : VirtioQueue} {head : ℕ}

namespace VirtioRun

open RingQueue

/-- The index after the entry of the used ring that the handler is at or has handled last. -/
def handledIdx (st : VirtioRun) : ℕ :=
  match st.mode with
  | .walk _ _ => (st.q.ackUsedIdx + 1) % idxRange
  | .callback _ _ _ => (st.q.ackUsedIdx + 1) % idxRange
  | _ => st.q.ackUsedIdx

/-- The invariant of the runs: `queued` are the heads that the device has not read, and `pend`
those that the handler has not come to. -/
structure Inv (st : VirtioRun) (queued pend : List ℕ) : Prop where
  idx : st.q.idx < ringSize
  owns : Owns st.q.desc st.owned
  chains : ∀ head ∈ st.flight, st.chain head ≠ []
  avail : Holds ringSize idxRange st.q.availRing st.lastAvail st.q.availIdx queued
  used : Holds ringSize idxRange st.q.usedRing st.handledIdx st.q.usedIdx pend
  flight : st.flight.Perm (queued ++ st.taken ++ pend)
  completed : st.completed =
    st.freed ++ st.current ++ pend.map fun head => (head, st.chain head)
  walk : ∀ head idx, st.mode = .walk head idx → st.rest ≠ []
  goesOn : ∀ head flags next, st.mode = .callback head flags next →
    (flags &&& descFNext = 0 ↔ st.rest = [])

variable {st st' : VirtioRun} {queued pend : List ℕ}

theorem ringSize_dvd : ringSize ∣ idxRange := by decide

theorem ringSize_lt : ringSize < idxRange := by decide

theorem inv_initial : initial.Inv [] [] where
  idx := by decide
  owns := by constructor <;> simp [initial, owned]
  chains := by simp [initial]
  avail := .nil _ (by decide)
  used := .nil _ (by decide)
  flight := .refl _
  completed := rfl
  walk := by simp [initial]
  goesOn := by simp [initial]

theorem Inv.exact (h : st.Inv queued pend) : st.Exact where
  apart := h.owns.apart
  intact := h.owns.intact
  handled := by
    rw [h.completed]
    exact List.prefix_append _ _
  goesOn := h.goesOn
  left := by
    intro hcur hack
    have hidx : st.handledIdx = st.q.ackUsedIdx := by
      cases hmode : st.mode with
      | idle => simp [handledIdx, hmode]
      | loop => simp [handledIdx, hmode]
      | walk head idx => simp [current, hmode] at hcur
      | callback head flags next => simp [current, hmode] at hcur
    have hnil : pend = [] := (h.used.eq_nil_iff ringSize_lt).mp (hidx.trans hack)
    rw [h.completed, hcur, hnil]
    simp

theorem flight_length_le (howns : Owns st.q.desc st.owned)
    (hchains : ∀ head ∈ st.flight, st.chain head ≠ []) : st.flight.length ≤ ringSize := by
  have hflight : Owns st.q.desc (st.flight.map fun head => (head, st.chain head)) := by
    rw [owned] at howns
    refine ⟨?_, ?_, ?_⟩
    · have hapart := howns.apart
      rw [List.flatMap_append] at hapart
      exact hapart.of_append_left
    · exact fun c hc => howns.intact c (List.mem_append_left _ hc)
    · exact fun c hc => howns.below c (List.mem_append_left _ hc)
  have hlen := hflight.length_le (by simpa using hchains)
  rwa [List.length_map] at hlen

theorem Inv.flags_ne (h : st.Inv queued pend) (hhead : head ∈ st.flight) :
    (st.q.desc head).flags ≠ 0 := by
  have hmem : (head, st.chain head) ∈ st.owned :=
    List.mem_append_left _ (List.mem_map_of_mem hhead)
  apply (h.owns.intact _ hmem).flags_ne head
  cases hc : st.chain head with
  | nil => exact absurd hc (h.chains head hhead)
  | cons b bs => simp [slots]

/-! ## Commands -/

theorem Inv.keeps (h : st.Inv queued pend) (hq : Keeps st.q q) :
    Inv { st with q := q } queued pend where
  idx := hq.idx h.idx
  owns := h.owns.frame hq.desc
  chains := h.chains
  avail := by
    dsimp only
    rw [hq.avail.1, hq.avail.2]
    exact h.avail
  used := by
    have hidx : handledIdx { st with q := q } = st.handledIdx := by
      simp only [handledIdx, hq.used.2.2]
    rw [hidx]
    dsimp only
    rw [hq.used.1, hq.used.2.1]
    exact h.used
  flight := h.flight
  completed := h.completed
  walk := h.walk
  goesOn := h.goesOn

theorem Inv.submit (h : st.Inv queued pend) {bufs : List (ℕ × ℕ)} (hkeeps : Keeps st.q q)
    (hbufs : bufs ≠ []) (hfree : (st.q.desc st.q.idx).flags = 0)
    (howns : Owns q.desc ((st.q.idx, bufs) :: st.owned)) :
    Inv { st with
      q := virtioAvailNew q st.q.idx
      flight := st.flight ++ [st.q.idx]
      chain := update st.chain st.q.idx bufs } (queued ++ [st.q.idx]) pend := by
  have hnot : ∀ head ∈ st.flight, head ≠ st.q.idx := by
    intro head hhead he
    exact h.flags_ne hhead (he ▸ hfree)
  have hchain : ∀ heads : List ℕ, heads ⊆ st.flight →
      heads.map (fun head => (head, update st.chain st.q.idx bufs head)) =
        heads.map fun head => (head, st.chain head) := by
    intro heads hsub
    apply List.map_congr_left
    intro head hhead
    rw [update_of_ne (hnot head (hsub hhead))]
  have hpend : pend ⊆ st.flight := by
    intro head hhead
    exact h.flight.mem_iff.mpr (List.mem_append_right _ hhead)
  have hchains : ∀ head ∈ st.flight ++ [st.q.idx],
      update st.chain st.q.idx bufs head ≠ [] := by
    intro head hhead
    cases List.mem_append.mp hhead with
    | inl hin =>
      rw [update_of_ne (hnot head hin)]
      exact h.chains head hin
    | inr hin =>
      rw [List.mem_singleton.mp hin, update_self]
      exact hbufs
  have howns' : Owns q.desc (owned { st with
      q := virtioAvailNew q st.q.idx
      flight := st.flight ++ [st.q.idx]
      chain := update st.chain st.q.idx bufs }) := by
    apply howns.perm
    rw [owned, owned]
    dsimp only
    rw [List.map_append, hchain st.flight (List.Subset.refl _), List.append_assoc,
      List.map_singleton, update_self, List.singleton_append]
    exact List.perm_middle.symm
  have hroom : queued.length < ringSize := by
    have hlen := @flight_length_le { st with
      q := virtioAvailNew q st.q.idx
      flight := st.flight ++ [st.q.idx]
      chain := update st.chain st.q.idx bufs } howns' hchains
    have hperm := h.flight.length_eq
    simp only [List.length_append, List.length_singleton] at hlen hperm
    omega
  have hold := h.keeps hkeeps
  refine ⟨hold.idx, howns', hchains, ?_, hold.used, ?_, ?_, h.walk, h.goesOn⟩
  · exact hold.avail.push ringSize_dvd hroom
  · have hperm : (st.flight ++ [st.q.idx]).Perm
        ((queued ++ st.taken ++ pend) ++ [st.q.idx]) := h.flight.append_right _
    apply hperm.trans
    simp only [List.append_assoc]
    apply List.Perm.append_left queued
    rw [← List.append_assoc]
    exact List.perm_append_comm
  · dsimp only
    rw [hchain pend hpend]
    exact h.completed

theorem Inv.send (h : st.Inv queued pend) (c : Command)
    (hresp : c.response.flags &&& descFNext = 0) : ∃ queued', (st.send c).Inv queued' pend := by
  rw [VirtioRun.send, c.send_eq, sendCommand]
  cases hnew : descNewAll st.q (c.requests.map (fun d => (d, descFNext)) ++
      [(c.response, descFWrite)]) with
  | mk ok q =>
    have hkeeps := descNewAll_keeps hnew
    cases ok with
    | false => exact ⟨queued, h.keeps hkeeps⟩
    | true =>
      obtain ⟨hw, hnodup, hfree⟩ := descNewAll_chain c.requests hresp hnew
      have hhead := hfree _ (c.head_mem_slots st.q.idx)
      exact ⟨queued ++ [st.q.idx], h.submit hkeeps (by simp [Command.bufs]) hhead
        (h.owns.cons hkeeps.desc h.idx hw hnodup hfree)⟩

/-! ## The device -/

theorem Inv.fetch (h : st.Inv queued pend) (hne : st.lastAvail ≠ st.q.availIdx) :
    ∃ queued', Inv { st with
      lastAvail := (st.lastAvail + 1) % idxRange
      taken := st.taken ++ [st.q.availRing (st.lastAvail % ringSize)] } queued' pend := by
  cases queued with
  | nil => exact absurd ((h.avail.eq_nil_iff ringSize_lt).mpr rfl) hne
  | cons head queued =>
    refine ⟨queued, h.idx, h.owns, h.chains, h.avail.pop ringSize_dvd, h.used, ?_, h.completed,
      h.walk, h.goesOn⟩
    dsimp only
    rw [h.avail.head]
    apply h.flight.trans
    apply List.Perm.append_right
    rw [List.cons_append, ← List.append_assoc]
    exact (List.perm_append_singleton head (queued ++ st.taken)).symm

theorem Inv.complete (h : st.Inv queued pend) (hhead : head ∈ st.taken) :
    Inv { st with
      q := { st.q with
        usedRing := update st.q.usedRing (st.q.usedIdx % ringSize) head
        usedIdx := (st.q.usedIdx + 1) % idxRange }
      taken := st.taken.erase head
      completed := st.completed ++ [(head, st.chain head)] } queued (pend ++ [head]) := by
  have hperm : (queued ++ st.taken ++ pend).Perm
      (queued ++ st.taken.erase head ++ (pend ++ [head])) := by
    simp only [List.append_assoc]
    apply List.Perm.append_left queued
    apply ((List.perm_cons_erase hhead).append_right pend).trans
    rw [List.cons_append, ← List.append_assoc]
    exact (List.perm_append_singleton head (st.taken.erase head ++ pend)).symm
  have hroom : pend.length < ringSize := by
    have hlen := flight_length_le h.owns h.chains
    have hlen' := (h.flight.trans hperm).length_eq
    simp only [List.length_append, List.length_singleton] at hlen'
    omega
  refine ⟨h.idx, h.owns, h.chains, h.avail, ?_, h.flight.trans hperm, ?_, h.walk, h.goesOn⟩
  · exact h.used.push ringSize_dvd hroom
  · dsimp only
    rw [h.completed, List.map_append, List.append_assoc]
    rfl

/-! ## The handler -/

section

variable (h : st.Inv queued pend)

include h

theorem Inv.next (hmode : st.mode = .loop) (hne : st.q.ackUsedIdx ≠ st.q.usedIdx) :
    ∃ pend', Inv { st with
      mode := .walk (st.q.usedRing (st.q.ackUsedIdx % ringSize))
        (st.q.usedRing (st.q.ackUsedIdx % ringSize))
      flight := st.flight.erase (st.q.usedRing (st.q.ackUsedIdx % ringSize))
      calls := []
      rest := st.chain (st.q.usedRing (st.q.ackUsedIdx % ringSize)) } queued pend' := by
  have hused := h.used
  rw [handledIdx, hmode] at hused
  dsimp only at hused
  cases pend with
  | nil => exact absurd ((hused.eq_nil_iff ringSize_lt).mpr rfl) hne
  | cons head pend =>
    have hhead : head ∈ st.flight := h.flight.mem_iff.mpr (by simp)
    have hflight := List.perm_cons_erase hhead
    rw [hused.head]
    refine ⟨pend, h.idx, ?_, ?_, h.avail, hused.pop ringSize_dvd, ?_, ?_, ?_, ?_⟩
    · apply h.owns.perm
      rw [owned, owned, hmode]
      dsimp only
      rw [List.append_nil]
      exact (hflight.map _).trans (List.perm_append_singleton _ _).symm
    · intro head' hhead'
      exact h.chains head' (List.mem_of_mem_erase hhead')
    · have hperm := hflight.symm.trans (h.flight.trans List.perm_middle)
      exact hperm.cons_inv
    · rw [h.completed]
      simp [current, hmode]
    · intro _ _ _
      exact h.chains head hhead
    · intro _ _ _ hcall
      cases hcall

theorem Inv.free {idx : ℕ} (hmode : st.mode = .walk head idx) :
    Inv { st with
      q := { st.q with desc := update st.q.desc idx .clear }
      mode := .callback head (st.q.desc idx).flags (st.q.desc idx).next
      calls := st.calls ++ [((st.q.desc idx).addr, (st.q.desc idx).len)]
      rest := st.rest.tail } queued pend := by
  have hused := h.used
  have howns := h.owns
  have hcompleted := h.completed
  rw [handledIdx, hmode] at hused
  rw [owned, hmode] at howns
  rw [current, hmode] at hcompleted
  dsimp only at hused howns hcompleted
  cases hrest : st.rest with
  | nil => exact absurd hrest (h.walk head idx hmode)
  | cons buf bufs =>
    rw [hrest] at howns hcompleted
    obtain ⟨hbuf, -, hlast, -, -⟩ := howns.intact (idx, buf :: bufs) (by simp)
    have hfirst := howns.perm (List.perm_append_singleton _ _)
    refine ⟨h.idx, ?_, h.chains, h.avail, hused, h.flight, ?_, ?_, ?_⟩
    · exact hfirst.free.perm (List.perm_append_singleton _ _).symm
    · dsimp only [current]
      rw [hcompleted, hbuf]
      simp
    · intro _ _ hwalk
      cases hwalk
    · intro _ _ _ hcall
      injection hcall with _ hflags _
      rw [← hflags]
      exact hlast

theorem Inv.finish {next : ℕ} (hmode : st.mode = .callback head flags next)
    (hlast : flags &&& descFNext = 0) :
    Inv { st with
      q := { st.q with ackUsedIdx := (st.q.ackUsedIdx + 1) % idxRange }
      mode := .loop
      freed := st.freed ++ [(head, st.calls)] } queued pend := by
  have hused := h.used
  have howns := h.owns
  have hcompleted := h.completed
  have hrest := (h.goesOn head flags next hmode).mp hlast
  rw [handledIdx, hmode] at hused
  rw [owned, hmode, hrest] at howns
  rw [current, hmode, hrest] at hcompleted
  refine ⟨h.idx, ?_, h.chains, h.avail, hused, h.flight, ?_, ?_, ?_⟩
  · rw [owned]
    dsimp only
    refine ⟨?_, ?_, ?_⟩
    · have hapart := howns.apart
      simp only [List.flatMap_append, List.flatMap_cons, List.flatMap_nil, slots] at hapart ⊢
      exact hapart
    · intro c hc
      rw [List.append_nil] at hc
      exact howns.intact c (List.mem_append_left _ hc)
    · intro c hc
      rw [List.append_nil] at hc
      exact howns.below c (List.mem_append_left _ hc)
  · rw [hcompleted]
    simp [current]
  · intro _ _ hwalk
    cases hwalk
  · intro _ _ _ hcall
    cases hcall

theorem Inv.continue {next : ℕ} (hmode : st.mode = .callback head flags next)
    (hmore : ¬ flags &&& descFNext = 0) :
    Inv { st with mode := .walk head next } queued pend := by
  have hused := h.used
  have howns := h.owns
  have hcompleted := h.completed
  rw [handledIdx, hmode] at hused
  rw [owned, hmode] at howns
  rw [current, hmode] at hcompleted
  refine ⟨h.idx, howns, h.chains, h.avail, hused, h.flight, hcompleted, ?_, ?_⟩
  · intro _ _ _ hnil
    exact hmore ((h.goesOn head flags next hmode).mpr hnil)
  · intro _ _ _ hcall
    cases hcall

theorem Inv.setMode {mode : HandlerMode} (hold : st.mode = .idle ∨ st.mode = .loop)
    (hnew : mode = .idle ∨ mode = .loop) :
    Inv { st with mode := mode } queued pend := by
  have hsame : handledIdx { st with mode := mode } = st.handledIdx ∧
      owned { st with mode := mode } = st.owned ∧
      current { st with mode := mode } = st.current := by
    cases hold with
    | inl ho => cases hnew with
      | inl hn => simp [handledIdx, owned, current, ho, hn]
      | inr hn => simp [handledIdx, owned, current, ho, hn]
    | inr ho => cases hnew with
      | inl hn => simp [handledIdx, owned, current, ho, hn]
      | inr hn => simp [handledIdx, owned, current, ho, hn]
  obtain ⟨hidx, howned, hcurrent⟩ := hsame
  refine ⟨h.idx, ?_, h.chains, h.avail, ?_, h.flight, ?_, ?_, ?_⟩
  · rw [howned]
    exact h.owns
  · rw [hidx]
    exact h.used
  · rw [hcurrent]
    exact h.completed
  · intro head idx hwalk
    cases hnew with
    | inl hn => exact absurd (hn.symm.trans hwalk) (by simp)
    | inr hn => exact absurd (hn.symm.trans hwalk) (by simp)
  · intro head flags next hcall
    cases hnew with
    | inl hn => exact absurd (hn.symm.trans hcall) (by simp)
    | inr hn => exact absurd (hn.symm.trans hcall) (by simp)

theorem Inv.step {c : VirtioCall} (hok : st.Unchained c) (hstep : st.step c = .ok st') :
    ∃ queued' pend', st'.Inv queued' pend' := by
  cases c with
  | send c =>
    rw [VirtioRun.step] at hstep
    obtain ⟨queued', h'⟩ := h.send c hok
    split at hstep
    · cases hstep
      exact ⟨queued', pend, h'⟩
    · cases hstep
      exact ⟨queued', pend, h'⟩
    · cases hstep
  | fetch =>
    rw [VirtioRun.step] at hstep
    split_ifs at hstep with hne
    cases hstep
    obtain ⟨queued', h'⟩ := h.fetch hne
    exact ⟨queued', pend, h'⟩
  | complete head =>
    rw [VirtioRun.step] at hstep
    split_ifs at hstep with hhead
    cases hstep
    exact ⟨queued, pend ++ [head], h.complete hhead⟩
  | irq =>
    rw [VirtioRun.step] at hstep
    split at hstep
    next hmode =>
      cases hstep
      exact ⟨queued, pend, h.setMode (Or.inl hmode) (Or.inr rfl)⟩
    next => cases hstep
  | next =>
    rw [VirtioRun.step] at hstep
    split at hstep
    next hmode =>
      split_ifs at hstep with hack
      · cases hstep
        exact ⟨queued, pend, h.setMode (Or.inr hmode) (Or.inl rfl)⟩
      · cases hstep
        obtain ⟨pend', h'⟩ := h.next hmode hack
        exact ⟨queued, pend', h'⟩
    next => cases hstep
  | free =>
    rw [VirtioRun.step] at hstep
    split at hstep
    next head idx hmode =>
      cases hstep
      exact ⟨queued, pend, h.free hmode⟩
    next => cases hstep
  | ret =>
    rw [VirtioRun.step] at hstep
    split at hstep
    next head flags next hmode =>
      split_ifs at hstep with hlast
      · cases hstep
        exact ⟨queued, pend, h.finish hmode hlast⟩
      · cases hstep
        exact ⟨queued, pend, h.continue hmode hlast⟩
    next => cases hstep

end

end VirtioRun

/-- **Every state of every run is exact**, if the callers leave it to the commands to set
`VRING_DESC_F_NEXT` in their last descriptors. -/
theorem virtioRuns_exact (st : VirtioRun)
    (hr : virtioRuns.ReachableVia VirtioRun.Unchained st) : st.Exact := by
  have hinv : ∃ queued pend, st.Inv queued pend := by
    apply hr.invariant (I := fun st => ∃ queued pend, VirtioRun.Inv st queued pend)
    · intro st hst
      obtain rfl : st = .initial := hst
      exact ⟨[], [], VirtioRun.inv_initial⟩
    · intro st c st' h hok hstep
      obtain ⟨queued, pend, h⟩ := h
      exact h.step hok hstep
  obtain ⟨queued, pend, h⟩ := hinv
  exact h.exact

/-- The theorem applies to a run in which `free_desc` sends a command while the second descriptor
of a chain is still to be freed. -/
theorem virtioRuns_exact_resent :
    ∃ st, virtioRuns.ReachableVia VirtioRun.Unchained st ∧
      (st.mode = .idle ∧ st.freed = [(0, [(4096, 8), (8192, 16)])] ∧ st.flight = [2]) ∧
      st.Exact := by
  obtain ⟨st, hr, hst⟩ := Lts.System.exists_reachableVia (M := virtioRuns) VirtioRun.Unchained
    (P := fun st => st.mode = .idle ∧ st.freed = [(0, [(4096, 8), (8192, 16)])] ∧ st.flight = [2])
    [.send (.two ⟨4096, 8, 0, 0⟩ ⟨8192, 16, 0, 0⟩), .fetch, .complete 0, .irq, .next, .free,
      .send (.one ⟨12288, 8, 0, 0⟩), .ret, .free, .ret, .next] rfl (by decide)
  exact ⟨st, hr, hst, virtioRuns_exact st hr⟩

end Ginkgo.Driver
