import Mathlib.Algebra.Ring.Int.Defs
import OsLabs.Lib.Greedy
import OsLabs.UThread.Units

open oslabs.ring oslabs.list oslabs.loop oslabs.run oslabs.greedy

namespace oslabs.uthread

variable {E S : Type}

/-- The units the requests in the queue of a semaphore ask for. -/
def Queues.demands (a : Queues E S) (sem : S) : List Int :=
  (a.queued sem).map fun request => request.2.toInt

/-- `b` is `a` after the first `k` requests in the queue of a semaphore got their units
    from those available. Their threads are ready, behind those that were before. -/
structure Released [DecidableEq E] [DecidableEq S] (sem : S) (available : Int) (k : Nat)
    (a b : Queues E S) : Prop where
  waiters : b.waiters = Function.update a.waiters (.sem sem) ((a.waiters (.sem sem)).drop k)
  ready : b.ready = a.ready ++ (a.blocked (.sem sem)).take k
  units : (b.sem sem).units.toInt = available - ((a.demands sem).take k).sum
  requests : requests sem b.trace = requests sem a.trace
  grants : grants sem b.trace = grants sem a.trace ++ (a.queued sem).take k
  others : b.toCore = { a.toCore with
    sem := Function.update a.sem sem { a.sem sem with units := (b.sem sem).units }
    trace := b.trace }

variable {sem : S} {a b : Queues E S}

theorem Queues.demands_nonneg (h : ∀ request ∈ a.queued sem, 0 ≤ request.2) :
    ∀ d ∈ a.demands sem, 0 ≤ d := by
  intro d hd
  obtain ⟨request, hrequest, rfl⟩ := List.mem_map.1 hd
  exact nonneg_iff.1 (h request hrequest)

variable [DecidableEq E] [DecidableEq S]

theorem released_zero (sem : S) (a : Queues E S) : Released sem (a.sem sem).units.toInt 0 a a where
  waiters := by simp
  ready := by simp
  units := by simp
  requests := rfl
  grants := by simp
  others := by simp

section Grant

variable {wblock : Nat} {rest : List Nat} (hwaiters : a.waiters (.sem sem) = wblock :: rest)
include hwaiters

theorem Queues.demands_grant :
    a.demands sem = (a.wblock_units wblock).toInt :: (a.grant sem).demands sem := by
  rw [Queues.demands, a.queued_grant hwaiters, List.map_cons, Queues.demands]

theorem Queues.units_grant (hpos : 0 ≤ a.wblock_units wblock)
    (hfits : a.wblock_units wblock ≤ (a.sem sem).units) :
    ((a.grant sem).sem sem).units.toInt =
      (a.sem sem).units.toInt - (a.wblock_units wblock).toInt := by
  rw [← toInt_sub_of_le hpos hfits]
  simp [Queues.grant, Queues.wake, Queues.activate, hwaiters, take_units]

/-- One more request got its units before the others. -/
theorem Released.grant {k : Nat} (hpos : 0 ≤ a.wblock_units wblock)
    (hfits : a.wblock_units wblock ≤ (a.sem sem).units)
    (h : Released sem ((a.grant sem).sem sem).units.toInt k (a.grant sem) b) :
    Released sem (a.sem sem).units.toInt (k + 1) a b := by
  refine ⟨?_, ?_, ?_, ?_, ?_, ?_⟩
  · rw [h.waiters]
    simp [Queues.grant, Queues.wake, Queues.activate, hwaiters]
  · rw [h.ready, a.ready_grant hwaiters, Queues.blocked, a.waiters_grant hwaiters]
    simp [Queues.grant, Queues.wake, Queues.activate, Queues.blocked, hwaiters, take_units]
  · rw [h.units, Queues.units_grant hwaiters hpos hfits, Queues.demands_grant hwaiters,
      List.take_succ_cons, List.sum_cons]
    omega
  · rw [h.requests, a.trace_grant hwaiters]
    simp only [requests_append, requests_grant, requests_ready, List.append_nil]
  · rw [h.grants, a.trace_grant hwaiters, a.queued_grant hwaiters]
    simp only [grants_append, grants_grant, grants_ready, if_true, List.append_nil, List.take_succ_cons]
    rw [List.append_assoc, List.singleton_append]
  · rw [h.others]
    simp [Queues.grant, Queues.wake, Queues.activate, hwaiters, take_units]

end Grant

/-- A release gives units to as many of the first requests as there are units for. -/
theorem released (a : Queues E S) (sem : S) (hunits : 0 ≤ (a.sem sem).units)
    (hdemands : ∀ request ∈ a.queued sem, 0 ≤ request.2) :
    Released sem (a.sem sem).units.toInt (served (a.sem sem).units.toInt (a.demands sem)) a
      (a.release sem) := by
  apply Queues.release_induction (P := fun a b => 0 ≤ (a.sem sem).units →
    (∀ request ∈ a.queued sem, 0 ≤ request.2) →
    Released sem (a.sem sem).units.toInt (served (a.sem sem).units.toInt (a.demands sem)) a b)
  · intro a hstop _ _
    have hnone : served (a.sem sem).units.toInt (a.demands sem) = 0 := by
      cases hwaiters : a.waiters (.sem sem) with
      | nil => simp [Queues.demands, Queues.queued, hwaiters, served]
      | cons wblock rest =>
        rw [Queues.demands_grant hwaiters]
        apply served_cons_neg
        have hlarge := hstop wblock rest hwaiters
        rwa [gt_iff_lt, Int32.lt_iff_toInt_lt, Int32.lt_iff_toInt_lt, Int32.toInt_zero] at hlarge
    rw [hnone]
    exact released_zero sem a
  · intro a wblock rest hwaiters hpos hfits ih hunits hdemands
    have hfirst : 0 ≤ a.wblock_units wblock := hdemands (a.wblock_thread wblock, a.wblock_units wblock)
      (by simp [Queues.queued, hwaiters])
    rw [Int32.not_lt] at hfits
    have hleft := Queues.units_grant hwaiters hfirst hfits
    rw [gt_iff_lt, Int32.lt_iff_toInt_lt, Int32.toInt_zero] at hpos
    rw [Queues.demands_grant hwaiters, served_cons_pos hpos (Int32.le_iff_toInt_le.1 hfits), ← hleft]
    apply Released.grant hwaiters hfirst hfits
    apply ih
    · rw [nonneg_iff, hleft]
      rw [Int32.le_iff_toInt_le] at hfits
      omega
    · rw [a.queued_grant hwaiters] at hdemands
      exact fun request hrequest => hdemands request (List.mem_cons_of_mem _ hrequest)
  · exact hunits
  · exact hdemands

variable {s s' : State E S} {n : Int32}

/-- What `sem_post` makes available before it looks at the queue. -/
def available (c : Core E S) (sem : S) (n : Int32) : Int :=
  min (c.sem sem).limit.toInt ((c.sem sem).units.toInt + n.toInt)

omit [DecidableEq E] [DecidableEq S] in
theorem available_nonneg (hrange : InRange sem s.toCore) (hamount : 0 ≤ n) :
    0 ≤ available s.toCore sem n := by
  have hlimit := Int32.le_iff_toInt_le.1 (Int32.le_trans hrange.1 hrange.2)
  have hunits := nonneg_iff.1 hrange.1
  have hamount := nonneg_iff.1 hamount
  rw [Int32.toInt_zero] at hlimit
  simp only [available]
  omega

/-- `sem_post` releases as many requests as what is available serves. -/
theorem Refines.posted (h : Refines s a) (hparked : Parked (.sem sem) a) (hrange : InRange sem s.toCore)
    (hdemands : ∀ request ∈ a.queued sem, 0 ≤ request.2) (hamount : 0 ≤ n)
    (hfits : (s.sem sem).units.toInt + n.toInt < 2 ^ 31) :
    ∃ fuel s' b, uthread.sem_post fuel s sem n = some s' ∧ Refines s' b ∧
      Released sem (available s.toCore sem n) (served (available s.toCore sem n) (a.demands sem)) a b := by
  obtain ⟨fuel, s', hend, href⟩ := h.sem_post_of_parked hparked n
  rw [h.core] at hrange hfits ⊢
  have hadded : ((add_units a.toCore sem n).sem sem).units.toInt = available a.toCore sem n := by
    rw [available, ← (saturating_iff hrange.1 hrange.2 hamount).2 hfits]
    simp [add_units]
  have hunits : 0 ≤ ((add_units a.toCore sem n).sem sem).units := by
    simpa [add_units] using (saturate_mem_range hrange.1 hrange.2 hamount hfits).1
  have hrelease := released { a with toCore := add_units a.toCore sem n } sem hunits hdemands
  rw [hadded] at hrelease
  refine ⟨fuel, s', _, hend, href, hrelease.waiters, hrelease.ready, hrelease.units,
    hrelease.requests, hrelease.grants, ?_⟩
  exact hrelease.others.trans (by simp [add_units])

/-- `sem_post` comes to its end. The units it makes available, up to the limit, go to the
    first requests in the queue, to as many of them as they are enough for. Only requests
    of no units may be left out at the end, and only if nothing is left. Nothing else
    changes. -/
theorem sem_post_releases (h : Refines s a) (hparked : Parked (.sem sem) a)
    (hrange : InRange sem s.toCore) (hdemands : ∀ request ∈ a.queued sem, 0 ≤ request.2)
    (hamount : 0 ≤ n) (hfits : (s.sem sem).units.toInt + n.toInt < 2 ^ 31) :
    ∃ fuel s' b, sem_post fuel s sem n = some s' ∧ Refines s' b ∧
      ∃ k ≤ (a.queued sem).length, Released sem (available s.toCore sem n) k a b ∧
        ((a.demands sem).take k).sum ≤ available s.toCore sem n ∧
        (∀ j, ((a.demands sem).take j).sum ≤ available s.toCore sem n →
          ∀ d ∈ ((a.demands sem).take j).drop k, d = 0) ∧
        (∀ j ≤ (a.queued sem).length, ((a.demands sem).take j).sum ≤ available s.toCore sem n →
          j ≤ k ∨ ((a.demands sem).take k).sum = available s.toCore sem n) ∧
        ((∀ request ∈ a.queued sem, 0 < request.2) → ∀ j ≤ (a.queued sem).length,
          ((a.demands sem).take j).sum ≤ available s.toCore sem n → j ≤ k) := by
  obtain ⟨fuel, s', b, hend, href, hreleased⟩ := h.posted hparked hrange hdemands hamount hfits
  have havailable := available_nonneg (n := n) hrange hamount
  have hlength := served_le_length (available s.toCore sem n) (a.demands sem)
  refine ⟨fuel, s', b, hend, href, _, ?_, hreleased, sum_served_le havailable _, ?_, ?_, ?_⟩
  · rwa [Queues.demands, List.length_map] at hlength
  · exact fun j hsum => eq_zero_of_fits havailable (Queues.demands_nonneg hdemands) hsum
  · intro j hj hsum
    apply le_served_or_used_up havailable (Queues.demands_nonneg hdemands) ?_ hsum
    rwa [Queues.demands, List.length_map]
  · intro hpositive j hj hsum
    apply le_served havailable ?_ (by rwa [Queues.demands, List.length_map]) hsum
    intro d hd
    obtain ⟨request, hrequest, rfl⟩ := List.mem_map.1 hd
    have hrequested := hpositive request hrequest
    rwa [Int32.lt_iff_toInt_lt, Int32.toInt_zero] at hrequested

/-- Two threads wait on a semaphore without units, and a third one runs. -/
def Queues.twoWaiting (limit : Int32) (demand : Nat → Int32) : Queues Unit Unit :=
  (Queues.enqueue { Queues.initial (booted fun _ => ⟨0, limit⟩ : State Unit Unit).toCore with
    running_thread := some (.user 2)
    wblock_thread := .user
    wblock_units := demand } (.sem ()) 0).enqueue (.sem ()) 1

theorem refines_twoWaiting (limit : Int32) (demand : Nat → Int32) :
    ∃ s : State Unit Unit, Refines s (Queues.twoWaiting limit demand) ∧
      Parked (.sem ()) (Queues.twoWaiting limit demand) ∧ s.sem () = ⟨0, limit⟩ ∧
      s.running_thread = some (.user 2) := by
  have hnobody := ((booted_initial fun _ => ⟨0, limit⟩ : Initial (booted _ : State Unit Unit)).refines).set_core
    { (booted fun _ => ⟨0, limit⟩ : State Unit Unit).toCore with
      running_thread := some (.user 2)
      wblock_thread := .user
      wblock_units := demand }
  refine ⟨_, (hnobody.enqueue (.sem ()) (by simp [Queues.initial])).enqueue (.sem ()) ?_,
    ⟨?_, ?_⟩, rfl, rfl⟩
  · intro other
    cases other <;> simp [Queues.enqueue, Queues.initial]
  · simp [Queues.blocked, Queues.twoWaiting, Queues.enqueue, Queues.initial]
  · simp [Queues.twoWaiting, Queues.enqueue, Queues.initial]

/-- Three units for requests of one and of two. -/
theorem sem_post_releases_two : ∃ (s s' : State Unit Unit) (b : Queues Unit Unit) (fuel : Nat),
    sem_post fuel s () 3 = some s' ∧ Refines s' b ∧ b.ready = [.user 0, .user 1] := by
  obtain ⟨s, href, hparked, hsem, _⟩ := refines_twoWaiting 3 fun wblock => if wblock = 0 then 1 else 2
  obtain ⟨fuel, s', b, hend, href', k, hk, hreleased, _, _, _, hmost⟩ :=
    sem_post_releases (n := 3) href hparked (by simp [InRange, hsem]) (by decide) (by decide) (by simp [hsem])
  refine ⟨s, s', b, fuel, hend, href', ?_⟩
  have htwo := hmost (by decide) 2 (by decide) (by rw [available, hsem]; decide)
  obtain rfl : k = 2 := Nat.le_antisymm hk htwo
  exact hreleased.ready

/-- A `sem_post` releases every first part of the queue that asks for no more than `enough`. -/
def ReleasesAll (enough : semaphore → Int32 → Int) : Prop :=
  ∀ (s s' : State Unit Unit) (a b : Queues Unit Unit) (n : Int32), Refines s a → Parked (.sem ()) a →
    InRange () s.toCore → (∀ request ∈ a.queued (), 0 ≤ request.2 ∧ request.2 ≤ (s.sem ()).limit) →
    0 ≤ n → (s.sem ()).units.toInt + n.toInt < 2 ^ 31 → Step s (.sem_post () n) s' → Refines s' b →
    ∀ j, ((a.demands ()).take j).sum ≤ enough (s.sem ()) n →
      b.waiters (.sem ()) <:+ (a.waiters (.sem ())).drop j

/-- A post of `n` to the two that wait releases what the queues say. -/
private theorem ReleasesAll.twoWaiting {enough : semaphore → Int32 → Int} (h : ReleasesAll enough)
    (limit n : Int32) (demand : Nat → Int32) (hlimit : 0 ≤ limit) (hn : 0 ≤ n)
    (hdemand : ∀ wblock, 0 ≤ demand wblock ∧ demand wblock ≤ limit)
    (hsum : (demand 0).toInt + (demand 1).toInt ≤ enough ⟨0, limit⟩ n) :
    Queues.waiters (({ Queues.twoWaiting limit demand with
      toCore := add_units (Queues.twoWaiting limit demand).toCore () n } : Queues Unit Unit).release ())
        (.sem ()) = [] := by
  obtain ⟨s, href, hparked, hsem, hrunning⟩ := refines_twoWaiting limit demand
  have hqueued : (Queues.twoWaiting limit demand).queued () = [(.user 0, demand 0), (.user 1, demand 1)] := rfl
  have hwaiters : (Queues.twoWaiting limit demand).waiters (.sem ()) = [0, 1] := rfl
  obtain ⟨fuel, s', hend, href'⟩ := href.sem_post_of_parked hparked n
  have hall := h s s' _ _ n href hparked (by simpa [InRange, hsem] using hlimit)
    (by simp [hqueued, hsem, hdemand]) hn (by simpa [hsem] using n.toInt_lt)
    ⟨⟨2, hrunning⟩, fuel, hend⟩ href' 2 (by simpa [Queues.demands, hqueued, hsem] using hsum)
  rw [hwaiters] at hall
  exact List.suffix_nil.1 hall

/-- With limit 2, four units are not enough for two requests of two. With limit 1, one unit
    serves a request of one, and the request of none behind it goes on waiting. -/
theorem sem_post_releases_fails :
    ¬ ReleasesAll (fun sem n => sem.units.toInt + n.toInt) ∧
      ¬ ReleasesAll (fun sem n => min sem.limit.toInt (sem.units.toInt + n.toInt)) := by
  constructor
  · intro h
    have hnone := h.twoWaiting 2 4 (fun _ => 2) (by decide) (by decide) (fun _ => by decide) (by decide)
    exact absurd hnone (by decide)
  · intro h
    have hnone := h.twoWaiting 1 1 (fun wblock => if wblock = 0 then 1 else 0)
      (by decide) (by decide) (fun wblock => by split <;> decide) (by decide)
    exact absurd hnone (by decide)

/-- Add units to a semaphore without regard to its limit. -/
def raise (sem : S) (n : Int32) (s : State E S) : State E S :=
  { s with sem := Function.update s.sem sem { s.sem sem with units := (s.sem sem).units + n } }

omit [DecidableEq E] in
@[simp] theorem raise_sem (sem : S) (n : Int32) (s : State E S) :
    (raise sem n s).sem sem = { s.sem sem with units := (s.sem sem).units + n } := by
  simp [raise]

omit [DecidableEq E] in
theorem raise_raise (sem : S) (n m : Int32) (s : State E S) :
    raise sem m (raise sem n s) = raise sem (n + m) s := by
  simp [raise, Int32.add_assoc]

theorem toInt_add_of_room {x y limit : Int32} (hx : 0 ≤ x) (hy : 0 ≤ y)
    (hroom : x.toInt + y.toInt ≤ limit.toInt) : (x + y).toInt = x.toInt + y.toInt :=
  toInt_add_of_lt hx hy (by have hmax := limit.toInt_lt; omega)

omit [DecidableEq E] in
/-- Where the limit has room for them, `sem_post` adds the units it is given. -/
theorem add_units_eq_raise (hunits : 0 ≤ (s.sem sem).units) (hamount : 0 ≤ n)
    (hroom : (s.sem sem).units.toInt + n.toInt ≤ (s.sem sem).limit.toInt) :
    { s with toCore := add_units s.toCore sem n } = raise sem n s := by
  have hsum := toInt_add_of_room hunits hamount hroom
  have hunder : ¬ (s.sem sem).units + n > (s.sem sem).limit := by
    rw [gt_iff_lt, Int32.lt_iff_toInt_lt]
    omega
  simp only [add_units, raise, if_neg hunder]

/-- A pass that gives a request its units gives it the same units out of more. -/
theorem sem_post_pass_raise (hpass : sem_post_pass sem s = some (.again s'))
    (hmore : (s.sem sem).units ≤ (s.sem sem).units + n) :
    sem_post_pass sem (raise sem n s) = some (.again (raise sem n s')) := by
  simp only [sem_post_pass, Option.bind_eq_bind, Option.bind_eq_some_iff] at hpass
  obtain ⟨wblock, hfirst, hpass⟩ := hpass
  split at hpass
  · simp at hpass
  · rename_i hfits
    obtain rfl : _ = s' := by simpa using hpass
    have hfits' : ¬ (s.sem sem).units + n < s.wblock_units wblock := by
      rw [Int32.not_lt] at hfits ⊢
      exact Int32.le_trans hfits hmore
    have hsub : (s.sem sem).units + n - s.wblock_units wblock =
        (s.sem sem).units - s.wblock_units wblock + n := by grind
    have hlinks : (raise sem n s).links = s.links := rfl
    have hunits : (raise sem n s).wblock_units = s.wblock_units := rfl
    simp only [sem_post_pass, hlinks, hunits, hfirst, raise_sem, Option.bind_eq_bind, Option.bind_some,
      if_neg hfits']
    simp [uthread.ut_activate, take_units, raise, hsub]

theorem sem_post_pass_leave_eq (hpass : sem_post_pass sem s = some (.leave s')) :
    s' = s := by
  simp only [sem_post_pass, Option.bind_eq_bind, Option.bind_eq_some_iff] at hpass
  obtain ⟨wblock, _, hpass⟩ := hpass
  split at hpass
  · simpa using hpass.symm
  · simp at hpass

/-- A state in which a semaphore has room for `n` more units, and requests and units are
    those of a queue. -/
def Roomy (sem : S) (n : Int32) (s : State E S) : Prop :=
  ∃ a, Refines s a ∧ Parked (.sem sem) a ∧ Bounded sem a ∧
    (s.sem sem).units.toInt + n.toInt ≤ (s.sem sem).limit.toInt

/-- A pass keeps the room, and does the same with `n` units more. -/
theorem Roomy.pass (h : Roomy sem n s) (hamount : 0 ≤ n)
    (hcond : (s.sem sem).units > 0 ∧ s.links.next (.waiters (.sem sem)) ≠ .waiters (.sem sem))
    (hpass : sem_post_pass sem s = some (.again s')) :
    ((raise sem n s).sem sem).units > 0 ∧
      sem_post_pass sem (raise sem n s) = some (.again (raise sem n s')) ∧ Roomy sem n s' := by
  obtain ⟨a, href, hparked, hbounded, hroom⟩ := h
  obtain ⟨hunits, hwaiting⟩ := hcond
  rw [href.waiting_iff] at hwaiting
  obtain ⟨wblock, rest, hwaiters⟩ := List.exists_cons_of_ne_nil hwaiting
  have hsum := toInt_add_of_room (Int32.le_of_lt hunits) hamount hroom
  have hmore : (s.sem sem).units ≤ (s.sem sem).units + n := by
    rw [Int32.le_iff_toInt_le, hsum]
    rw [nonneg_iff] at hamount
    omega
  refine ⟨?_, sem_post_pass_raise hpass hmore, ?_⟩
  · rw [raise_sem]
    exact Int32.lt_of_lt_of_le hunits hmore
  · by_cases hlarge : (a.sem sem).units < a.wblock_units wblock
    · rw [href.sem_post_pass_leave hwaiters hlarge] at hpass
      simp at hpass
    · obtain ⟨next, hnext, href'⟩ := href.sem_post_pass_again hparked hwaiters hlarge
      obtain rfl : next = s' := by simpa [hnext] using hpass
      rw [Int32.not_lt] at hlarge
      refine ⟨a.grant sem, href', hparked.grant hwaiters, hbounded.grant hwaiters hlarge, ?_⟩
      have hdemand : 0 ≤ a.wblock_units wblock := hbounded.demands
        (a.wblock_thread wblock, a.wblock_units wblock) (by simp [Queues.queued, hwaiters])
      have hlimit : ((a.grant sem).sem sem).limit = (a.sem sem).limit := by
        simp [Queues.grant, Queues.wake, Queues.activate, hwaiters, take_units]
      rw [href.core] at hroom
      rw [href'.core, hlimit, Queues.units_grant hwaiters hdemand hlarge]
      rw [nonneg_iff] at hdemand
      omega

omit [DecidableEq E] in
theorem roomy_raise {m : Int32} (h : Refines s a) (hparked : Parked (.sem sem) a)
    (hunits : 0 ≤ (s.sem sem).units) (hdemands : ∀ request ∈ a.queued sem, 0 ≤ request.2)
    (hn : 0 ≤ n) (hm : 0 ≤ m)
    (hroom : (s.sem sem).units.toInt + n.toInt + m.toInt ≤ (s.sem sem).limit.toInt) :
    Roomy sem m (raise sem n s) := by
  have hm' := nonneg_iff.1 hm
  have hroom' : (s.sem sem).units.toInt + n.toInt ≤ (s.sem sem).limit.toInt := by omega
  have hsum := toInt_add_of_room hunits hn hroom'
  refine ⟨{ a with toCore := (raise sem n s).toCore }, h.set_core _, hparked.set_core _ ?_,
    ⟨⟨?_, ?_⟩, ?_⟩, ?_⟩
  · rw [← h.core]
    rfl
  · rw [raise_sem, nonneg_iff, hsum]
    have hunits' := nonneg_iff.1 hunits
    have hn' := nonneg_iff.1 hn
    omega
  · rw [raise_sem, Int32.le_iff_toInt_le, hsum]
    exact hroom'
  · have hqueued : Queues.queued { a with toCore := (raise sem n s).toCore } sem = a.queued sem := by
      simp [Queues.queued, raise, h.core]
    rwa [hqueued]
  · rw [raise_sem, hsum]
    exact hroom

/-- Units that the limit has room for may be posted in two pieces: the whole memory is in
    the end as it is after one post of them all. -/
theorem sem_post_in_pieces {m : Int32} (h : Refines s a) (hparked : Parked (.sem sem) a)
    (hunits : 0 ≤ (s.sem sem).units) (hdemands : ∀ request ∈ a.queued sem, 0 ≤ request.2)
    (hn : 0 ≤ n) (hm : 0 ≤ m)
    (hroom : (s.sem sem).units.toInt + n.toInt + m.toInt ≤ (s.sem sem).limit.toInt) :
    ∃ s₁ s₂, (∃ fuel, sem_post fuel s sem n = some s₁) ∧
      (∃ fuel, sem_post fuel s₁ sem m = some s₂) ∧
      ∃ fuel, sem_post fuel s sem (n + m) = some s₂ := by
  have hunits' := nonneg_iff.1 hunits
  have hm' := nonneg_iff.1 hm
  have hboth := toInt_add_of_room hn hm (show n.toInt + m.toInt ≤ (s.sem sem).limit.toInt by omega)
  have hfirst : { s with toCore := add_units s.toCore sem n } = raise sem n s :=
    add_units_eq_raise hunits hn (by omega)
  have honce : { s with toCore := add_units s.toCore sem (n + m) } = raise sem m (raise sem n s) := by
    rw [raise_raise]
    apply add_units_eq_raise hunits
    · rw [nonneg_iff] at hn ⊢
      omega
    · omega
  obtain ⟨fuel, s₁, hpost, _⟩ := h.sem_post_of_parked hparked n
  have hloop := hpost
  rw [sem_post, hfirst] at hloop
  obtain ⟨⟨a₁, href, hparked', hbounded, hroom'⟩, more, hresume⟩ :=
    whileLoop_resume (Roomy sem m) (raise sem m) (fun s s' hroomy hcond hpass => by
      rw [decide_eq_true_eq] at hcond ⊢
      obtain ⟨hpos, hpass', hroomy'⟩ := hroomy.pass hm hcond hpass
      exact ⟨⟨hpos, hcond.2⟩, hpass', hroomy'⟩)
      (fun s s' hleave => sem_post_pass_leave_eq hleave)
      (roomy_raise h hparked hunits hdemands hn hm hroom) hloop
  have hsecond : { s₁ with toCore := add_units s₁.toCore sem m } = raise sem m s₁ :=
    add_units_eq_raise (href.core ▸ hbounded.range.1) hm hroom'
  obtain ⟨fuel', s₂, hpost', _⟩ := href.sem_post_of_parked hparked' m
  refine ⟨s₁, s₂, ⟨fuel, hpost⟩, ⟨fuel', hpost'⟩, fuel' + more, ?_⟩
  rw [sem_post, honce, hresume, ← hsecond]
  exact hpost'

/-- One unit and then two, or three at once, for requests of one and of two. -/
theorem sem_post_in_pieces_two : ∃ s s₁ s₂ : State Unit Unit,
    (∃ fuel, sem_post fuel s () 1 = some s₁) ∧ (∃ fuel, sem_post fuel s₁ () 2 = some s₂) ∧
      ∃ fuel, sem_post fuel s () (1 + 2) = some s₂ := by
  obtain ⟨s, href, hparked, hsem, _⟩ := refines_twoWaiting 3 fun wblock => if wblock = 0 then 1 else 2
  exact ⟨s, sem_post_in_pieces href hparked (by simp [hsem]) (by decide) (by decide) (by decide)
    (by rw [hsem]; decide)⟩

end oslabs.uthread
