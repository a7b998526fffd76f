import OsCa.Kernel.Pipe.Model

/-!
# A pipe is a queue

Whatever the processes do, what has been stored is what has been removed followed
by the contents of the ring, and the bytes of one call of `pipewrite` are in the
order of the call.
-/

namespace OsCa.Pipes

open Bytes Function List

variable {n : ℕ} {s t : State n} {e : Event n} {p : Fin n} {pc' : Pc}

/-! ## The lock -/

/-- The process has `pi->lock`. -/
def Pc.holds : Pc → Bool
  | .test .. | .wake .. | .sleep _ | .copy .. | .done .. => true
  | .user | .acquire _ | .fall _ | .asleep _ | .close _ => false

def Exclusive (s : State n) : Prop := ∀ p, (s.pc p).holds = true ↔ s.lock = some p

namespace Exclusive

section

variable (h : Exclusive s) (hpc : t.pc = update s.pc p pc')

include h hpc

theorem keep (hlock : t.lock = s.lock) (hsame : pc'.holds = (s.pc p).holds) : Exclusive t := by
  intro q
  rw [hlock, ← h q, hpc, update_apply]
  split
  next heq => rw [hsame, heq]
  next => rfl

theorem take (hfree : s.lock = none) (hlock : t.lock = some p)
    (hholds : pc'.holds = true) : Exclusive t := by
  intro q
  rw [hlock, hpc, update_apply, Option.some.injEq]
  split
  next heq => simp [hholds, heq]
  next hne =>
    rw [h q, hfree]
    simp [Ne.symm hne]

theorem give (hp : (s.pc p).holds = true) (hlock : t.lock = none)
    (hholds : pc'.holds = false) : Exclusive t := by
  intro q
  rw [hlock, hpc, update_apply]
  split
  next => simp [hholds]
  next hne =>
    rw [h q, (h p).mp hp]
    simp [Ne.symm hne]

end

/-- Two processes at places with the lock are the same. -/
theorem eq (h : Exclusive s) {q : Fin n} (hp : (s.pc p).holds = true)
    (hq : (s.pc q).holds = true) : p = q :=
  Option.some.inj (((h p).mp hp).symm.trans ((h q).mp hq))

end Exclusive

/-- A round of `wakeup` changes only whether a process sleeps. -/
theorem wakeup_eq (s : State n) (c : Chan) (q : Fin n) :
    ∃ f, s.wakeup c q = { s with sleeping := f } := by
  unfold State.wakeup
  split
  · exact ⟨_, rfl⟩
  · exact ⟨s.sleeping, rfl⟩

theorem Move.exclusive (hm : Move s e t) (h : Exclusive s) : Exclusive t := by
  cases hm with
  | pipewrite hp | piperead hp | pipeclose hp | warn hp | store hp | wrote hp | wait hp
  | copy hp | sleep hp | fall hp | resume hp | read hp => exact h.keep rfl rfl (by rw [hp]; rfl)
  | kill | fork => exact h
  | acquire hp hlock | close hp hlock => exact h.take rfl hlock rfl rfl
  | giveUp hp | quit hp | release hp => exact h.give rfl (by rw [hp]; rfl) rfl rfl
  | take pc hp hempty hpc =>
    refine h.keep rfl rfl ?_
    rw [hp]
    rcases hpc with rfl | ⟨rfl, -⟩ <;> rfl
  | wake hp hk | last hp hk =>
    obtain ⟨f, hf⟩ := wakeup_eq s _ ⟨_, hk⟩
    rw [hf]
    exact h.keep rfl rfl (by rw [hp]; rfl)
  | @finish p o k hp hk =>
    cases o with
    | wrote | read | closed => exact h.give rfl (by rw [hp]; rfl) rfl rfl

/-! ## The calls of `pipewrite` -/

/-- The bytes that a call has stored. -/
def bytesOf (id : ℕ) (stored : List (ℕ × Byte)) : List Byte :=
  stored.filterMap fun b => if b.1 = id then some b.2 else none

/-- The first `i` bytes of the call have been stored, in order. -/
def Placed (s : State n) (c : WriteCall) (i : ℕ) : Prop :=
  c.id < s.next ∧ (bytesOf c.id s.stored).map some = (range i).map c.src

/-- The call of `pipewrite` that the process is in, and how far it has come. -/
def Pc.writing : Pc → Option (WriteCall × ℕ)
  | .acquire (.write c i) | .test (.write c i) _ | .wake (.write c i) _ |
    .sleep (.write c i) | .fall (.write c i) | .asleep (.write c i) |
    .done (.wrote c i) _ => some (c, i)
  | _ => none

structure Ledger (s : State n) : Prop where
  ids : ∀ b ∈ s.stored, b.1 < s.next
  calls : ∀ p c i, (s.pc p).writing = some (c, i) → Placed s c i
  distinct : ∀ p q c i d j, (s.pc p).writing = some (c, i) →
    (s.pc q).writing = some (d, j) → c.id = d.id → p = q
  returned : ∀ r ∈ s.returned, Placed s r.1 r.2
  gone : ∀ r ∈ s.returned, ∀ p d j, (s.pc p).writing = some (d, j) → d.id ≠ r.1.id

namespace Ledger

/-- No byte is stored, and processes only leave calls. -/
theorem keep (h : Ledger s) (hpc : t.pc = update s.pc p pc')
    (hsame : (t.stored, t.next, t.returned) = (s.stored, s.next, s.returned))
    (hw : pc'.writing = (s.pc p).writing ∨ pc'.writing = none) : Ledger t := by
  obtain ⟨hst, hnext, hret⟩ : t.stored = s.stored ∧ t.next = s.next ∧
      t.returned = s.returned := by simpa using hsame
  have hold : ∀ q c i, (t.pc q).writing = some (c, i) → (s.pc q).writing = some (c, i) := by
    intro q c i hq
    rw [hpc, update_apply] at hq
    split at hq
    next heq =>
      rcases hw with hw | hw
      · rw [heq, ← hw, hq]
      · rw [hw] at hq
        cases hq
    next => exact hq
  have hplaced : ∀ {c i}, Placed s c i → Placed t c i := by
    intro c i hc
    unfold Placed
    rwa [hst, hnext]
  refine ⟨?_, fun q c i hq => hplaced (h.calls q c i (hold q c i hq)),
    fun q r c i d j hq hr => h.distinct q r c i d j (hold q c i hq) (hold r d j hr),
    ?_, ?_⟩
  · rw [hst, hnext]
    exact h.ids
  · rw [hret]
    exact fun r hr => hplaced (h.returned r hr)
  · rw [hret]
    exact fun r hr q d j hq => h.gone r hr q d j (hold q d j hq)

/-- A call begins with a number that has not been used. -/
theorem begin (h : Ledger s) {src : ℕ → Option Byte} {m : BitVec 32} :
    Ledger { s.goto p (.acquire (.write ⟨s.next, src, m⟩ 0)) with
      next := s.next + 1 } := by
  set t : State n := { s.goto p (.acquire (.write ⟨s.next, src, m⟩ 0)) with
    next := s.next + 1 }
  have hw : ∀ q c i, (t.pc q).writing = some (c, i) →
      q = p ∧ c.id = s.next ∧ i = 0 ∨ q ≠ p ∧ (s.pc q).writing = some (c, i) := by
    intro q c i hq
    change (update s.pc p _ q).writing = _ at hq
    rw [update_apply] at hq
    split at hq
    next heq =>
      cases hq
      exact Or.inl ⟨heq, rfl, rfl⟩
    next hne => exact Or.inr ⟨hne, hq⟩
  have hplaced : ∀ {c i}, Placed s c i → Placed t c i := fun hc => ⟨Nat.lt_succ_of_lt hc.1, hc.2⟩
  have hnone : bytesOf s.next s.stored = [] := by
    refine filterMap_eq_nil_iff.mpr fun b hb => if_neg ?_
    exact (h.ids b hb).ne
  refine ⟨fun b hb => Nat.lt_succ_of_lt (h.ids b hb), fun q c i hq => ?_,
    fun q r c i d j hq hr heq => ?_, fun r hr => hplaced (h.returned r hr),
    fun r hr q d j hq => ?_⟩
  · rcases hw q c i hq with ⟨-, hid, rfl⟩ | ⟨-, hq⟩
    · refine ⟨hid ▸ Nat.lt_succ_self _, ?_⟩
      rw [hid]
      exact congrArg (map some) hnone
    · exact hplaced (h.calls q c i hq)
  · rcases hw q c i hq with ⟨hqp, hid, -⟩ | ⟨-, hq⟩ <;>
      rcases hw r d j hr with ⟨hrp, hid', -⟩ | ⟨-, hr⟩
    · exact hqp.trans hrp.symm
    · exact absurd (heq.symm.trans hid) (h.calls r d j hr).1.ne
    · exact absurd (heq.trans hid') (h.calls q c i hq).1.ne
    · exact h.distinct q r c i d j hq hr heq
  · rcases hw q d j hq with ⟨-, hid, -⟩ | ⟨-, hq⟩
    · exact hid ▸ (h.returned r hr).1.ne'
    · exact h.gone r hr q d j hq

theorem bytesOf_append (id : ℕ) (l : List (ℕ × Byte)) (b : ℕ × Byte) :
    bytesOf id (l ++ [b]) = if b.1 = id then bytesOf id l ++ [b.2] else bytesOf id l := by
  unfold bytesOf
  rw [filterMap_append]
  split
  next heq => simp [heq]
  next hne => simp [hne]

theorem store (h : Ledger s) {c : WriteCall} {i : ℕ} {b : Bool} {ch : Byte} {pipe : Pipe}
    (hp : s.pc p = .test (.write c i) b) (hsrc : c.src i = some ch) :
    Ledger ({ s with
        pipe := pipe
        stored := s.stored ++ [(c.id, ch)] }.goto p (.test (.write c (i + 1)) true)) := by
  set t : State n := { s with
    pipe := pipe
    stored := s.stored ++ [(c.id, ch)] }.goto p (.test (.write c (i + 1)) true)
  have hcall : (s.pc p).writing = some (c, i) := by
    rw [hp]
    rfl
  have hold := h.calls p c i hcall
  have hother : ∀ {d j}, d.id ≠ c.id → Placed s d j → Placed t d j := by
    intro d j hne hd
    refine ⟨hd.1, ?_⟩
    change (bytesOf d.id (s.stored ++ [(c.id, ch)])).map some = _
    rw [bytesOf_append, if_neg (Ne.symm hne), hd.2]
  have hw : ∀ q d j, (t.pc q).writing = some (d, j) →
      q = p ∧ d = c ∧ j = i + 1 ∨ q ≠ p ∧ (s.pc q).writing = some (d, j) := by
    intro q d j hq
    change (update s.pc p _ q).writing = _ at hq
    rw [update_apply] at hq
    split at hq
    next heq =>
      cases hq
      exact Or.inl ⟨heq, rfl, rfl⟩
    next hne => exact Or.inr ⟨hne, hq⟩
  have hne : ∀ q d j, q ≠ p → (s.pc q).writing = some (d, j) → d.id ≠ c.id :=
    fun q d j hqp hq heq => hqp (h.distinct q p d j c i hq hcall heq)
  refine ⟨fun b hb => ?_, fun q d j hq => ?_, fun q r d j d' j' hq hr heq => ?_,
    fun r hr => ?_, fun r hr q d j hq => ?_⟩
  · rcases mem_append.mp hb with hb | hb
    · exact h.ids b hb
    · rw [mem_singleton.mp hb]
      exact hold.1
  · rcases hw q d j hq with ⟨-, rfl, rfl⟩ | ⟨hqp, hq⟩
    · refine ⟨hold.1, ?_⟩
      change (bytesOf d.id (s.stored ++ [(d.id, ch)])).map some = _
      rw [bytesOf_append, if_pos rfl, map_append, hold.2, range_succ,
        map_append, map_singleton, map_singleton, hsrc]
    · exact hother (hne q d j hqp hq) (h.calls q d j hq)
  · rcases hw q d j hq with ⟨hqp, hd, -⟩ | ⟨hqp, hq⟩ <;>
      rcases hw r d' j' hr with ⟨hrp, hd', -⟩ | ⟨hrp, hr⟩
    · exact hqp.trans hrp.symm
    · exact absurd (heq.symm.trans (congrArg WriteCall.id hd)) (hne r d' j' hrp hr)
    · exact absurd (heq.trans (congrArg WriteCall.id hd')) (hne q d j hqp hq)
    · exact h.distinct q r d j d' j' hq hr heq
  · exact hother (h.gone r hr p c i hcall).symm (h.returned r hr)
  · rcases hw q d j hq with ⟨-, rfl, -⟩ | ⟨-, hq⟩
    · exact h.gone r hr p d i hcall
    · exact h.gone r hr q d j hq

theorem finish (h : Ledger s) {o : Outcome} {k : ℕ} (hp : s.pc p = .done o k) :
    Ledger ((s.finish o).leave p) := by
  have hleave : Ledger (s.leave p) := h.keep rfl rfl (Or.inr rfl)
  cases o with
  | read | closed => exact ⟨hleave.ids, hleave.calls, hleave.distinct, hleave.returned, hleave.gone⟩
  | wrote c i =>
    have hcall : (s.pc p).writing = some (c, i) := by
      rw [hp]
      rfl
    refine ⟨hleave.ids, hleave.calls, hleave.distinct, fun r hr => ?_, fun r hr q d j hq heq => ?_⟩
    all_goals
      rcases mem_append.mp hr with hr | hr
    · exact hleave.returned r hr
    · rw [mem_singleton.mp hr]
      exact h.calls p c i hcall
    · exact hleave.gone r hr q d j hq heq
    · rw [mem_singleton.mp hr] at heq
      change (update s.pc p _ q).writing = _ at hq
      rw [update_apply] at hq
      split at hq
      next => cases hq
      next hne => exact hne (h.distinct q p d j c i hq hcall heq)

end Ledger

theorem Move.ledger (hm : Move s e t) (h : Ledger s) : Ledger t := by
  cases hm with
  | pipewrite hp => exact h.begin
  | piperead hp | pipeclose hp | giveUp hp | quit hp | wait hp | copy hp | read hp
  | close hp => exact h.keep rfl rfl (Or.inr rfl)
  | kill | fork => exact ⟨h.ids, h.calls, h.distinct, h.returned, h.gone⟩
  | warn hp | wrote hp => exact h.keep rfl rfl (Or.inl (by rw [hp]; rfl))
  | @acquire p j hp | @sleep p j k hp | @release p j hp | @fall p j hp
  | @resume p j hp =>
    refine h.keep rfl rfl (Or.inl ?_)
    rw [hp]
    cases j <;> rfl
  | store hp hfull hsrc => exact h.store hp hsrc
  | take pc hp hempty hpc =>
    refine h.keep rfl rfl (Or.inr ?_)
    rcases hpc with rfl | ⟨rfl, -⟩ <;> rfl
  | @wake p j k hp hk =>
    obtain ⟨f, hf⟩ := wakeup_eq s .nread ⟨k, hk⟩
    rw [hf]
    refine h.keep rfl rfl (Or.inl ?_)
    rw [hp]
    cases j <;> rfl
  | @last p o k hp hk =>
    obtain ⟨f, hf⟩ := wakeup_eq s o.chan ⟨k, hk⟩
    rw [hf]
    refine h.keep rfl rfl (Or.inl ?_)
    rw [hp]
    cases o <;> rfl
  | finish hp hk => exact h.finish hp

/-! ## The ring -/

theorem PIPESIZE_dvd : PIPESIZE ∣ 2 ^ 32 := by decide

theorem PIPESIZE_lt : PIPESIZE < 2 ^ 32 := by decide

/-- The ring holds what has been stored and not been removed. -/
def Queue (s : State n) : Prop := ∃ q, Ring.Holds s.pipe.data s.pipe.nread s.pipe.nwrite q ∧
    s.stored.map Prod.snd = s.removed ++ q

theorem Move.queue (hm : Move s e t) (h : Queue s) : Queue t := by
  obtain ⟨q, hq, hstored⟩ := h
  cases hm with
  | @store p c i b ch hp hfull hsrc =>
    have hlen : q.length < PIPESIZE := by
      refine lt_of_le_of_ne hq.length_le fun hlen => hfull ?_
      exact (hq.full_iff PIPESIZE_lt).mpr hlen
    refine ⟨q ++ [ch], hq.push PIPESIZE_dvd hlen ch, ?_⟩
    change (s.stored ++ [(c.id, ch)]).map Prod.snd = s.removed ++ (q ++ [ch])
    rw [map_append, hstored, append_assoc]
    rfl
  | take pc hp hempty hpc =>
    cases q with
    | nil => exact absurd ((hq.empty_iff PIPESIZE_lt).mpr rfl) hempty
    | cons x q =>
      refine ⟨q, hq.pop, ?_⟩
      change _ = s.removed ++ [s.pipe.front] ++ q
      rw [show s.pipe.front = x from hq.head, append_assoc]
      exact hstored
  | @close p writable hp hlock =>
    refine ⟨q, ?_, hstored⟩
    cases writable <;> exact hq
  | wake hp hk | last hp hk =>
    obtain ⟨f, hf⟩ := wakeup_eq s _ ⟨_, hk⟩
    rw [hf]
    exact ⟨q, hq, hstored⟩
  | @finish p o k hp hk => cases o <;> exact ⟨q, hq, hstored⟩
  | pipewrite | piperead | pipeclose | kill | fork | acquire | giveUp | warn | wrote | quit
  | wait | copy | sleep | release | fall | resume | read => exact ⟨q, hq, hstored⟩

/-! ## End of file -/

/-- What the place of a reader says about the pipe. -/
def Pc.Sees (pi : Pipe) : Pc → Prop
  | .copy _ i => i = 0 → ¬ (pi.Empty ∧ pi.writeopen = true)
  | .done (.read c i) _ => i = 0 → 0 < c.n.toInt → (∀ a, c.dst a = true) →
      pi.Empty ∧ pi.writeopen = false
  | _ => True

def Watched (s : State n) : Prop := ∀ p, (s.pc p).Sees s.pipe

theorem Pc.sees_of_not_holds {pc : Pc} (h : pc.holds = false) (pi : Pipe) : pc.Sees pi := by
  cases pc with
  | copy | done => cases h
  | user | acquire | test | wake | sleep | fall | asleep | close => trivial

/-- The pipe changes only in the hands of the process that has the lock. -/
theorem Watched.step (h : Watched s) (hpc : t.pc = update s.pc p pc')
    (hothers : t.pipe = s.pipe ∨ ∀ q, q ≠ p → (s.pc q).holds = false)
    (hself : pc'.Sees t.pipe) : Watched t := by
  intro q
  rw [hpc, update_apply]
  split
  next => exact hself
  next hne =>
    rcases hothers with hpipe | hothers
    · rw [hpipe]
      exact h q
    · exact Pc.sees_of_not_holds (hothers q hne) _

theorem Move.watched (hm : Move s e t) (hx : Exclusive s) (h : Watched s) : Watched t := by
  have halone : ∀ {p}, (s.pc p).holds = true → ∀ q, q ≠ p → (s.pc q).holds = false :=
    fun hp q hne => Bool.eq_false_iff.mpr fun hq => hne (hx.eq hq hp)
  cases hm with
  | pipewrite | piperead | pipeclose | acquire | giveUp | warn | wrote | quit | wait | sleep
  | release | fall | resume => exact h.step rfl (Or.inl rfl) trivial
  | kill | fork => exact h
  | store hp => exact h.step rfl (Or.inr (halone (by rw [hp]; rfl))) trivial
  | copy hp hready => exact h.step rfl (Or.inl rfl) (fun _ => hready)
  | wake hp hk =>
    obtain ⟨f, hf⟩ := wakeup_eq s .nread ⟨_, hk⟩
    rw [hf]
    exact h.step rfl (Or.inl rfl) trivial
  | @take p c i pc hp hempty hpc =>
    refine h.step rfl (Or.inr (halone (by rw [hp]; rfl))) ?_
    rcases hpc with rfl | ⟨rfl, hdst⟩
    · exact fun hi => absurd hi (Nat.succ_ne_zero i)
    · exact fun _ _ hall => absurd ((hall i).symm.trans hdst) (by simp)
  | @read p c i hp hstop =>
    refine h.step rfl (Or.inl rfl) (fun hi hn _ => ?_)
    have hready : ¬ (s.pipe.Empty ∧ s.pipe.writeopen = true) := by
      have hsees := h p
      rw [hp] at hsees
      exact hsees hi
    have hempty : s.pipe.Empty := by
      refine hstop.resolve_left ?_
      subst hi
      exact Int.not_le.mpr hn
    exact ⟨hempty, Bool.eq_false_iff.mpr fun hopen => hready ⟨hempty, hopen⟩⟩
  | @close p writable hp hlock =>
    refine h.step rfl (Or.inr fun q _ => ?_) trivial
    rw [Bool.eq_false_iff]
    intro hq
    exact absurd (hlock.symm.trans ((hx q).mp hq)) (by simp)
  | @last p o k hp hk =>
    obtain ⟨f, hf⟩ := wakeup_eq s o.chan ⟨k, hk⟩
    rw [hf]
    have hsees := h p
    rw [hp] at hsees
    refine h.step rfl (Or.inl rfl) ?_
    cases o with
    | read => exact hsees
    | wrote | closed => trivial
  | @finish p o k hp hk => cases o <;> exact h.step rfl (Or.inl rfl) trivial

/-! ## The channel -/

structure Channel (s : State n) : Prop where
  exclusive : Exclusive s
  ledger : Ledger s
  queue : Queue s
  watched : Watched s

theorem Channel.of_start (h : Start s) : Channel s := by
  have hw : ∀ p c i, (s.pc p).writing ≠ some (c, i) := fun p c i hp => by
    rw [h.pc p] at hp
    cases hp
  refine ⟨fun p => ?_, ⟨?_, fun p c i hp => absurd hp (hw p c i),
    fun p q c i d j hp => absurd hp (hw p c i), ?_, ?_⟩, ⟨[], ?_, ?_⟩, fun p => ?_⟩
  · rw [h.pc p, h.lock]
    simp [Pc.holds]
  · simp [h.stored]
  · simp [h.returned]
  · simp [h.returned]
  · rw [h.nread, h.nwrite]
    exact Ring.Holds.nil _ _
  · simp [h.stored, h.removed]
  · rw [h.pc p]
    trivial

theorem Channel.of_reachable (h : (system n).Reachable s) : Channel s :=
  h.invariant (fun _ hs => .of_start hs) fun _ _ _ hs hstep =>
    have hm := step_move hstep
    ⟨hm.exclusive hs.exclusive, hm.ledger hs.ledger, hm.queue hs.queue,
      hm.watched hs.exclusive hs.watched⟩

/-- The counters differ by at most `PIPESIZE`.  The bytes that have been removed
are the first of those that have been stored, the bytes of a write that has
returned are in its order, and `piperead` of at least one byte with a valid buffer
returns 0 only for an empty pipe whose write end is closed. -/
theorem pipe_is_fifo (h : (system n).Reachable s) :
    (s.pipe.nwrite - s.pipe.nread).toNat ≤ PIPESIZE ∧
    s.removed <+: s.stored.map Prod.snd ∧
    (∀ c i, (c, i) ∈ s.returned → (bytesOf c.id s.stored).map some = (range i).map c.src) ∧
    ∀ p c k, s.pc p = .done (.read c 0) k → 0 < c.n.toInt → (∀ a, c.dst a = true) →
      s.pipe.nread = s.pipe.nwrite ∧ s.pipe.writeopen = false := by
  have hs := Channel.of_reachable h
  obtain ⟨q, hq, hstored⟩ := hs.queue
  refine ⟨?_, ⟨q, hstored.symm⟩, fun c i hc => (hs.ledger.returned _ hc).2, fun p c k hp => ?_⟩
  · rw [hq.toNat_sub PIPESIZE_lt]
    exact hq.length_le
  · have hsees := hs.watched p
    rw [hp] at hsees
    exact hsees rfl

/-- A process writes two bytes and reads one of them. -/
def writeRead : List (Event 1) :=
  let p : Fin 1 := ⟨0, Nat.one_pos⟩
  let steps (k : ℕ) := replicate k (Event.step p)
  .pipewrite p (fun i => some (BitVec.ofNat 8 (i + 7))) 2 :: steps 6 ++
    .piperead p (fun _ => true) 1 :: steps 6

theorem pipe_is_fifo_writeRead :
    ∃ s r, (system 1).Reachable s ∧ s.returned = [r] ∧ s.removed = [7] ∧
      s.removed <+: s.stored.map Prod.snd ∧
      (bytesOf r.1.id s.stored).map some = (range r.2).map r.1.src := by
  obtain ⟨s, hs, hremoved, hreturned⟩ : ∃ s, (system 1).run (newPipe 1) writeRead = some s ∧
      s.removed = [7] ∧ s.returned.length = 1 :=
    EventSystem.exists_of_any_run (by decide +kernel)
  obtain ⟨r, hr⟩ := length_eq_one_iff.mp hreturned
  have hreach : (system 1).Reachable s := ⟨_, _, start_newPipe, hs⟩
  obtain ⟨-, hprefix, hcalls, -⟩ := pipe_is_fifo hreach
  refine ⟨s, r, hreach, hr, hremoved, hprefix, hcalls r.1 r.2 ?_⟩
  rw [hr]
  exact mem_singleton_self r

end OsCa.Pipes
