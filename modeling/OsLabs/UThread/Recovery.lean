import OsLabs.UThread.Post

open oslabs.ring oslabs.list oslabs.loop oslabs.run oslabs.greedy

namespace oslabs.uthread

variable {E S : Type} [DecidableEq E] [DecidableEq S] {sem : S} {s s' : State E S} {a b : Queues E S}
  {k : Nat} {n : Int32}

/-- One `sem_post` of an amount that is not negative and does not overflow the counter. -/
def Posts (sem : S) (s : State E S) (n : Int32) (s' : State E S) : Prop :=
  0 ≤ n ∧ (s.sem sem).units.toInt + n.toInt < 2 ^ 31 ∧ ∃ fuel, sem_post fuel s sem n = some s'

section Released

variable {amount : Int} (h : Released sem amount k a b)
include h

theorem Released.blocked_eq : b.blocked (.sem sem) = (a.blocked (.sem sem)).drop k := by
  have hthread : b.wblock_thread = a.wblock_thread := (congrArg Core.wblock_thread h.others).trans rfl
  rw [Queues.blocked, h.waiters, hthread, Function.update_self, Queues.blocked, List.map_drop]

theorem Released.queued_eq : b.queued sem = (a.queued sem).drop k := by
  have hthread : b.wblock_thread = a.wblock_thread := (congrArg Core.wblock_thread h.others).trans rfl
  have hunits : b.wblock_units = a.wblock_units := (congrArg Core.wblock_units h.others).trans rfl
  rw [Queues.queued, h.waiters, hthread, hunits, Function.update_self, Queues.queued, List.map_drop]

theorem Released.limit_eq : (b.sem sem).limit = (a.sem sem).limit := by
  have hsem : b.sem sem = { a.sem sem with units := (b.sem sem).units } :=
    (congrFun (congrArg Core.sem h.others) sem).trans (Function.update_self ..)
  exact (congrArg semaphore.limit hsem).trans rfl

theorem Released.parked (hparked : Parked (.sem sem) a) : Parked (.sem sem) b := by
  have hnodup := hparked.nodup
  rw [← List.take_append_drop k (a.blocked (.sem sem)), List.nodup_append] at hnodup
  obtain ⟨_, hdrop, hapart⟩ := hnodup
  refine ⟨by rwa [h.blocked_eq], fun t ht => ?_⟩
  rw [h.blocked_eq] at ht
  rw [h.ready, List.mem_append, not_or]
  refine ⟨hparked.not_ready t (List.mem_of_mem_drop ht), fun htaken => ?_⟩
  exact hapart t htaken t ht rfl

/-- What the first requests do not take up stays between nothing and the limit. -/
theorem Released.range (hdemands : ∀ d ∈ a.demands sem, 0 ≤ d)
    (hsum : ((a.demands sem).take k).sum ≤ amount) (hlimit : amount ≤ (a.sem sem).limit.toInt) :
    InRange sem b.toCore := by
  have htaken : 0 ≤ ((a.demands sem).take k).sum :=
    List.sum_nonneg fun d hd => hdemands d (List.mem_of_mem_take hd)
  constructor
  · rw [nonneg_iff, h.units]
    omega
  · rw [Int32.le_iff_toInt_le, h.units, h.limit_eq]
    omega

end Released

/-- A semaphore with a queue of requests for something, whose threads wait. -/
structure Waiting (sem : S) (s : State E S) (a : Queues E S) : Prop where
  refines : Refines s a
  parked : Parked (.sem sem) a
  range : InRange sem a.toCore
  positive : ∀ request ∈ a.queued sem, 0 < request.2

theorem Waiting.exists_post (h : Waiting sem s a) (hn : 0 ≤ n)
    (hfits : (s.sem sem).units.toInt + n.toInt < 2 ^ 31) : ∃ s', Posts sem s n s' := by
  obtain ⟨fuel, s', hend, _⟩ := h.refines.sem_post_of_parked h.parked n
  exact ⟨s', hn, hfits, fuel, hend⟩

/-- A post leaves in the queue what the units it makes available do not serve. -/
theorem Waiting.post (h : Waiting sem s a) (hpost : Posts sem s n s') :
    ∃ b, Waiting sem s' b ∧ (b.sem sem).limit = (a.sem sem).limit ∧
      b.queued sem = (a.queued sem).drop (served (available a.toCore sem n) (a.demands sem)) := by
  obtain ⟨hn, hfits, fuel, hend⟩ := hpost
  have hrange : InRange sem s.toCore := h.refines.core ▸ h.range
  have hdemands : ∀ request ∈ a.queued sem, 0 ≤ request.2 := fun request hrequest =>
    Int32.le_of_lt (h.positive request hrequest)
  obtain ⟨fuel', s'', b, hend', href, hreleased⟩ := h.refines.posted h.parked hrange hdemands hn hfits
  obtain rfl : s' = s'' := whileLoop_unique hend hend'
  have havailable := available_nonneg hrange hn
  rw [h.refines.core] at hreleased havailable
  refine ⟨b, ⟨href, hreleased.parked h.parked, ?_, ?_⟩, hreleased.limit_eq, hreleased.queued_eq⟩
  · exact hreleased.range (Queues.demands_nonneg hdemands) (sum_served_le havailable _) (min_le_left _ _)
  · rw [hreleased.queued_eq]
    exact fun request hrequest => h.positive request (List.mem_of_mem_drop hrequest)

omit [DecidableEq E] [DecidableEq S] in
/-- What is available is no more than the limit, and so is what one request gets of it. -/
theorem Waiting.le_limit_of_served (h : Waiting sem s a) (hn : 0 ≤ n) {request : Thread × Int32}
    (hrequest : request ∈ (a.queued sem).take (served (available a.toCore sem n) (a.demands sem))) :
    request.2 ≤ (a.sem sem).limit := by
  have hdemands : ∀ d ∈ a.demands sem, 0 ≤ d := Queues.demands_nonneg fun request hrequest =>
    Int32.le_of_lt (h.positive request hrequest)
  have havailable : 0 ≤ available a.toCore sem n := by
    have hrange : InRange sem s.toCore := h.refines.core ▸ h.range
    exact h.refines.core ▸ available_nonneg hrange hn
  have hmem := List.mem_map_of_mem (f := fun request : Thread × Int32 => request.2.toInt) hrequest
  rw [List.map_take] at hmem
  have hle := List.single_le_sum (fun d hd => hdemands d (List.mem_of_mem_take hd)) _ hmem
  rw [Int32.le_iff_toInt_le]
  exact (hle.trans (sum_served_le havailable _)).trans (min_le_left _ _)

/-- A request for more than the limit stays in the queue, whatever is posted. -/
theorem Waiting.stuck (h : Waiting sem s a) {posts : List Int32} (hrun : Run (Posts sem) s posts s')
    {request : Thread × Int32} (hrequest : request ∈ a.queued sem)
    (hlarge : (a.sem sem).limit < request.2) : ∃ b, Waiting sem s' b ∧ request ∈ b.queued sem := by
  have hkept : ∃ b, Waiting sem s' b ∧ request ∈ b.queued sem ∧ (b.sem sem).limit < request.2 := by
    apply hrun.invariant (fun s => ∃ b, Waiting sem s b ∧ request ∈ b.queued sem ∧
      (b.sem sem).limit < request.2) ⟨a, h, hrequest, hlarge⟩
    rintro s n s' ⟨a, h, hmem, hlarge⟩ hpost
    obtain ⟨b, hb, hlimit, hqueued⟩ := h.post hpost
    refine ⟨b, hb, ?_, by rwa [hlimit]⟩
    rw [hqueued]
    rw [← List.take_append_drop (served (available a.toCore sem n) (a.demands sem)) (a.queued sem),
      List.mem_append] at hmem
    refine hmem.resolve_left fun htaken => ?_
    exact Int32.not_le.2 hlarge (h.le_limit_of_served hpost.1 htaken)
  obtain ⟨b, hb, hmem, _⟩ := hkept
  exact ⟨b, hb, hmem⟩

/-- Where no request is for more than the limit, posts that fill the semaphore up serve
    at least the first one each, and so empty the queue. -/
theorem Waiting.emptied (h : Waiting sem s a)
    (hsmall : ∀ request ∈ a.queued sem, request.2 ≤ (a.sem sem).limit) :
    ∃ posts s' b, Run (Posts sem) s posts s' ∧ Waiting sem s' b ∧ b.queued sem = [] := by
  generalize hlength : (a.queued sem).length = length
  induction length using Nat.strongRecOn generalizing s a with
  | _ length ih =>
    cases hqueue : a.queued sem with
    | nil => exact ⟨[], s, a, .nil, h, hqueue⟩
    | cons request rest =>
      have hsem : s.sem = a.sem := congrArg Core.sem h.refines.core
      have hroom := sub_mem_range h.range.1 h.range.2 (Int32.le_refl (a.sem sem).limit)
      have hfill := toInt_sub_of_le h.range.1 h.range.2
      have hmax := (a.sem sem).limit.toInt_lt
      obtain ⟨s₁, hpost⟩ := h.exists_post (n := (a.sem sem).limit - (a.sem sem).units) hroom.1
        (by rw [hsem]; omega)
      obtain ⟨b, hb, hlimit, hqueued⟩ := h.post hpost
      have hfull : available a.toCore sem ((a.sem sem).limit - (a.sem sem).units) =
          (a.sem sem).limit.toInt := by
        rw [available, hfill]
        omega
      have hserved : 0 < served (a.sem sem).limit.toInt (a.demands sem) := by
        have hpos := h.positive request (hqueue ▸ List.mem_cons_self)
        have hfits := hsmall request (hqueue ▸ List.mem_cons_self)
        rw [Int32.lt_iff_toInt_lt, Int32.toInt_zero] at hpos
        rw [Int32.le_iff_toInt_le] at hfits
        rw [Queues.demands, hqueue, List.map_cons, served_cons_pos (by omega) hfits]
        exact Nat.succ_pos _
      rw [hfull] at hqueued
      obtain ⟨posts, s', c, hrun, hc, hnil⟩ := ih (b.queued sem).length (by
        rw [hqueued, List.length_drop, ← hlength, hqueue, List.length_cons]
        omega) hb (by
        rw [hqueued, hlimit]
        exact fun request hrequest => hsmall request (List.mem_of_mem_drop hrequest)) rfl
      exact ⟨_, s', c, .append (.snoc .nil hpost) hrun, hc, hnil⟩

/-- From `a` to `b` a semaphore got more requests, and granted none above its limit. -/
structure Onward (sem : S) (a b : Queues E S) : Prop where
  requests_prefix : requests sem a.trace <+: requests sem b.trace
  limit_eq : (b.sem sem).limit = (a.sem sem).limit
  grants_within : ∀ request ∈ grants sem b.trace,
    request ∈ grants sem a.trace ∨ request.2 ≤ (a.sem sem).limit

omit [DecidableEq E] in
theorem SameSem.onward (h : SameSem sem a b) : Onward sem a b where
  requests_prefix := by rw [h.requests_eq]
  limit_eq := by rw [h.sem_eq]
  grants_within request hrequest := .inl (by rwa [h.grants_eq] at hrequest)

omit [DecidableEq E] in
theorem Onward.trans {c : Queues E S} (h : Onward sem a b) (h' : Onward sem b c) : Onward sem a c where
  requests_prefix := h.requests_prefix.trans h'.requests_prefix
  limit_eq := h'.limit_eq.trans h.limit_eq
  grants_within request hrequest := by
    rcases h'.grants_within request hrequest with hold | hsmall
    · exact h.grants_within request hold
    · exact .inr (by rwa [h.limit_eq] at hsmall)

theorem Onward.grant {wblock : Nat} {rest : List Nat} (h : Fifo sem a)
    (hwaiters : a.waiters (.sem sem) = wblock :: rest)
    (hfits : a.wblock_units wblock ≤ (a.sem sem).units) : Onward sem a (a.grant sem) := by
  refine ⟨?_, ?_, ?_⟩
  · rw [a.trace_grant hwaiters]
    simp
  · simp [Queues.grant, Queues.wake, Queues.activate, hwaiters, take_units]
  · rw [a.trace_grant hwaiters]
    simp only [grants_append, grants_grant, grants_ready, if_true, List.append_nil, List.mem_append,
      List.mem_singleton]
    rintro request (hold | rfl)
    · exact .inl hold
    · exact .inr (Int32.le_trans hfits h.units_le_limit)

theorem Onward.release (h : Fifo sem a) : Onward sem a (a.release sem) := by
  apply Queues.release_induction (P := fun a b => Fifo sem a → Onward sem a b)
  · intro a _ _
    exact SameSem.onward .of_eq
  · intro a wblock rest hwaiters _ hfits ih h
    have hfits := Int32.not_lt.mp hfits
    exact (Onward.grant h hwaiters hfits).trans (ih (h.grant hwaiters hfits))
  · exact h

/-- Every call goes onward. -/
theorem Fifo.onward {place : Thread → Place E S} {call : Call E S} (h : Fifo sem a)
    (hlocated : Located a place) (hallowed : Allowed a.toCore call)
    (hadmissible : Admissible sem a.toCore call) (hperform : a.perform call = some b) :
    Onward sem a b := by
  cases Queues.semMove sem hlocated hallowed hperform with
  | frame hsame => exact hsame.onward
  | fast hempty hfits =>
    refine ⟨by simp, by simp, ?_⟩
    simp only [grants_append, grants_request, grants_grant, if_true, List.append_nil, List.mem_append,
      List.mem_singleton]
    rintro request (hold | rfl)
    · exact .inl hold
    · exact .inr (Int32.le_trans hfits h.units_le_limit)
  | @await block wblock units _ hnew hslow hsame =>
    have hwait : Onward sem a (a.await sem (.user block) units wblock) := by
      refine ⟨by simp [Queues.await], rfl, fun request hrequest => .inl ?_⟩
      simpa [Queues.await] using hrequest
    exact hwait.trans hsame.onward
  | @post units =>
    obtain ⟨hunits, hsum⟩ := hadmissible rfl
    have hadd : Onward sem a { a with toCore := add_units a.toCore sem units } :=
      ⟨List.prefix_rfl, by simp [add_units], fun request hrequest => .inl hrequest⟩
    exact hadd.trans (Onward.release (h.added hunits hsum))

theorem InOrder.run {calls : List (Call E S)} (h : InOrder sem s a)
    (hrun : Run (AdmissibleStep sem) s calls s') : ∃ b, InOrder sem s' b ∧ Onward sem a b := by
  induction hrun with
  | nil => exact ⟨a, h, SameSem.onward .of_eq⟩
  | snoc _ hstep ih =>
    obtain ⟨b, hb, honward⟩ := ih
    obtain ⟨c, ⟨hallowed, hperform⟩, hc⟩ := hb.step hstep
    obtain ⟨place, hlocated⟩ := hb.located
    have hadmissible := hb.refines.core ▸ hstep.2
    exact ⟨c, hc, honward.trans (hb.fifo.onward hlocated hallowed hadmissible hperform)⟩

omit [DecidableEq E] in
theorem InOrder.waiting (h : InOrder sem s a) : Waiting sem s a := by
  obtain ⟨href, ⟨place, hlocated⟩, hfifo, _⟩ := h
  exact ⟨href, hlocated.parked _, ⟨hfifo.units_nonneg, hfifo.units_le_limit⟩, hfifo.positive⟩

/-- What was granted comes before the first request for more than the limit. -/
theorem grants_prefix_of_large {requested granted queued before after : List (Thread × Int32)}
    {request : Thread × Int32} {limit : Int32} (hhistory : requested = granted ++ queued)
    (hrequested : before ++ request :: after <+: requested) (hlarge : limit < request.2)
    (hsmall : ∀ request ∈ granted, request.2 ≤ limit) : granted <+: before := by
  have hgranted : granted <+: requested := hhistory ▸ List.prefix_append _ _
  have hbefore : before ++ [request] <+: requested := by
    refine List.IsPrefix.trans ?_ hrequested
    simp
  by_contra hnot
  have hmore : before ++ [request] <+: granted := by
    apply List.prefix_of_prefix_length_le hbefore hgranted
    by_contra hshort
    rw [List.length_append, List.length_singleton] at hshort
    exact hnot (List.prefix_of_prefix_length_le hgranted ((List.prefix_append _ _).trans hbefore) (by omega))
  have hmem : request ∈ granted := hmore.subset (by simp)
  exact Int32.not_le.2 hlarge (hsmall request hmem)

/-- The queue of a semaphore can be emptied by posts exactly when no request in it is for
    more than the limit. Such a request is never granted, and neither are those after it. -/
theorem sem_recoverable_iff {s₀ s : State E S} {calls : List (Call E S)} (sem : S)
    (hinitial : Initial s₀) (hunits : 0 ≤ (s₀.sem sem).units)
    (hlimit : (s₀.sem sem).units ≤ (s₀.sem sem).limit) (hrun : Run (AdmissibleStep sem) s₀ calls s)
    (href : Refines s a) :
    ((∃ posts s', Run (Posts sem) s posts s' ∧ is_list_empty s'.links (.waiters (.sem sem)) = true) ↔
        ∀ request ∈ a.queued sem, request.2 ≤ (s.sem sem).limit) ∧
      ∀ before request after, requests sem s.trace = before ++ request :: after →
        (s.sem sem).limit < request.2 → ∀ more s', Run (AdmissibleStep sem) s more s' →
          grants sem s'.trace <+: before := by
  obtain ⟨a', hinOrder, honward⟩ := (hinitial.inOrder hunits hlimit).run hrun
  obtain rfl := hinOrder.refines.unique href
  have hsem : s.sem = a'.sem := congrArg Core.sem href.core
  have htrace : s.trace = a'.trace := congrArg Core.trace href.core
  rw [hsem, htrace]
  refine ⟨⟨?_, ?_⟩, ?_⟩
  · rintro ⟨posts, s', hposts, hempty⟩ request hrequest
    by_contra hlarge
    obtain ⟨b, hb, hmem⟩ := hinOrder.waiting.stuck hposts hrequest (Int32.not_le.1 hlarge)
    rw [hb.refines.is_list_empty_waiters] at hempty
    simp [Queues.queued, hempty] at hmem
  · intro hsmall
    obtain ⟨posts, s', b, hposts, hb, hnil⟩ := hinOrder.waiting.emptied hsmall
    refine ⟨posts, s', hposts, ?_⟩
    rw [hb.refines.is_list_empty_waiters]
    exact List.map_eq_nil_iff.1 hnil
  · intro before request after hrequests hlarge more s' hmore
    obtain ⟨b, hb, honward'⟩ := hinOrder.run hmore
    rw [congrArg Core.trace hb.refines.core]
    apply grants_prefix_of_large hb.fifo.history (hrequests ▸ honward'.requests_prefix) hlarge
    intro granted hgranted
    rcases (honward.trans honward').grants_within granted hgranted with hold | hsmall
    · simp [Queues.initial, hinitial.trace] at hold
    · rwa [← honward.limit_eq] at hsmall

/-- The one request in the queue is for no more than the limit. -/
theorem sem_recoverable_iff_starved : ∃ (s s' : State Unit Unit) (posts : List Int32),
    Run (AdmissibleStep ()) (booted fun _ => ⟨1, 2⟩) [.ut_create 1 4096, .ut_run, .sem_wait () 2 0] s ∧
      requests () s.trace = [(.user 1, 2)] ∧ Run (Posts ()) s posts s' ∧
      is_list_empty s'.links (.waiters (.sem ())) = true := by
  obtain ⟨s, hrun, hrequests, hgrants⟩ := run_starved
  have hinitial := booted_initial (E := Unit) (fun _ : Unit => ⟨1, 2⟩)
  have hfirst : InOrder () _ _ := hinitial.inOrder (by decide) (by decide)
  obtain ⟨a, hinOrder, honward⟩ := hfirst.run hrun
  have hqueued : a.queued () = [(.user 1, 2)] := by
    have hhistory := hinOrder.fifo.history
    rwa [← congrArg Core.trace hinOrder.refines.core, hrequests, hgrants, List.nil_append, eq_comm] at hhistory
  have hlimit : (s.sem ()).limit = 2 := by
    rw [hinOrder.refines.core, honward.limit_eq]
    rfl
  have hrecoverable := sem_recoverable_iff () hinitial (by decide) (by decide) hrun hinOrder.refines
  obtain ⟨posts, s', hposts, hempty⟩ := hrecoverable.1.2 (by simp [hqueued, hlimit])
  exact ⟨s, s', posts, hrun, hrequests, hposts, hempty⟩

end oslabs.uthread
