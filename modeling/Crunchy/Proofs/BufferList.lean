/-
Module: Crunchy.Proofs.BufferList
Purpose: The cache list over sequences of `buffer_get`: the buffers of `buffer_init` and one for
  each block that was asked for, in the order of the first requests.
Trusted boundary: none
Main exports: GetCall, runGets, firstRequests, BuffersListed, buffer_list_iff
-/
import Crunchy.Proofs.IdeRuns

namespace Crunchy

open Lib Option List

variable {Data : Type}

/-! ### Sequences of calls -/

/-- A call `buffer_get(dev, block)`, with what `malloc` would return and what is in it. -/
structure GetCall (Data : Type) where
  dev : U32
  block : U32
  new : BufferPtr
  memory : Buffer Data

/-- What is asked for. -/
def GetCall.key (call : GetCall Data) : U32 × U32 := (call.dev, call.block)

def GetCall.run (call : GetCall Data) (s : Ide Data) : Option (Ide Data) :=
  (bufferGet call.dev call.block call.new call.memory s).map Prod.snd

/-- The calls one after the other; `none` if one of them does not end. -/
def runGets : List (GetCall Data) → Ide Data → Option (Ide Data)
  | [], s => some s
  | call :: calls, s => (call.run s).bind (runGets calls)

/-- The calls that ask for something that is not in `seen` and has not been asked for before. -/
def firstRequests (seen : List (U32 × U32)) : List (GetCall Data) → List (GetCall Data)
  | [] => []
  | call :: calls =>
    if call.key ∈ seen then firstRequests seen calls
    else call :: firstRequests (seen ++ [call.key]) calls

/-- Calls as they come: no device has the number of the placeholders, and `malloc` returns
memory that is not in use. -/
structure GetsLegal (list : BufferPtr) (calls : List (GetCall Data)) : Prop where
  device : ∀ call ∈ calls, call.dev ≠ 0xFFFFFFFF#32
  fresh : (List.range' list maxOpBlocks ++ (firstRequests [] calls).map GetCall.new).Nodup

/-- Following `next` from `cache.list` visits the buffers `nodes`, then one for each of the
calls `made`, and ends. -/
structure BuffersListed (nodes : List BufferPtr) (made : List (GetCall Data)) (s : Ide Data) :
    Prop where
  linked : Linked (fun x => (s.buffers x).next) s.cacheList (nodes ++ made.map GetCall.new)
  keys : ∀ call ∈ made, (s.buffers call.new).dev = call.dev ∧
    (s.buffers call.new).block = call.block

/-! ### One call -/

variable {s s' : Ide Data} {nodes : List BufferPtr} {made calls : List (GetCall Data)}
  {call : GetCall Data}

/-- The list between two calls: placeholders, and a buffer for each first request. -/
structure CacheMade (nodes : List BufferPtr) (made : List (GetCall Data)) (s : Ide Data) :
    Prop where
  cache : CacheList s (nodes ++ made.map GetCall.new)
  placeholders : ∀ b ∈ nodes, (s.buffers b).dev = 0xFFFFFFFF#32
  keys : ∀ call ∈ made, (s.buffers call.new).dev = call.dev ∧
    (s.buffers call.new).block = call.block

namespace CacheMade

theorem listed (cached : CacheMade nodes made s) : BuffersListed nodes made s :=
  ⟨cached.cache.linked, cached.keys⟩

/-- The list has a buffer for what has been asked for, and for nothing else. -/
theorem mem_keys_iff (cached : CacheMade nodes made s) (device : call.dev ≠ 0xFFFFFFFF#32) :
    call.key ∈ made.map GetCall.key ↔ ∃ b ∈ nodes ++ made.map GetCall.new,
      (s.buffers b).dev = call.dev ∧ (s.buffers b).block = call.block := by
  constructor
  · intro again
    obtain ⟨earlier, member, same⟩ := mem_map.mp again
    obtain ⟨sameDev, sameBlock⟩ := Prod.mk.inj same
    obtain ⟨hasDev, hasBlock⟩ := cached.keys earlier member
    exact ⟨earlier.new, mem_append_right _ (mem_map_of_mem member),
      hasDev.trans sameDev, hasBlock.trans sameBlock⟩
  · rintro ⟨b, member, hasDev, hasBlock⟩
    rcases mem_append.mp member with initial | later
    · exact absurd (hasDev.symm.trans (cached.placeholders b initial)) device
    · obtain ⟨earlier, isMade, rfl⟩ := mem_map.mp later
      obtain ⟨sameDev, sameBlock⟩ := cached.keys earlier isMade
      exact mem_map.mpr ⟨earlier, isMade,
        Prod.ext (sameDev.symm.trans hasDev) (sameBlock.symm.trans hasBlock)⟩

/-- Asked for again, a block's buffer only gets a flag. -/
theorem again (cached : CacheMade nodes made s) (device : call.dev ≠ 0xFFFFFFFF#32)
    (before : call.key ∈ made.map GetCall.key) :
    ∃ s', call.run s = some s' ∧ CacheMade nodes made s' := by
  obtain ⟨b, member, isMatch⟩ := (cached.mem_keys_iff device).mp before
  have some : ((nodes ++ made.map GetCall.new).find? fun b =>
      (s.buffers b).dev = call.dev ∧ (s.buffers b).block = call.block).isSome = true := by
    rw [find?_isSome]
    exact ⟨b, member, decide_eq_true isMatch⟩
  obtain ⟨first, found⟩ := isSome_iff_exists.mp some
  obtain ⟨busy, isBusy⟩ : ∃ busy, busy = s.modify first fun x =>
    { x with flags := x.flags ||| bBusy } := ⟨_, rfl⟩
  have ran : call.run s = Option.some busy := by
    rw [GetCall.run, bufferGet_hit cached.cache found, isBusy, map_some]
  have next : ∀ b, (busy.buffers b).next = (s.buffers b).next :=
    isBusy ▸ s.modify_field first (·.next) rfl
  have dev : ∀ b, (busy.buffers b).dev = (s.buffers b).dev :=
    isBusy ▸ s.modify_field first (·.dev) rfl
  have block : ∀ b, (busy.buffers b).block = (s.buffers b).block :=
    isBusy ▸ s.modify_field first (·.block) rfl
  refine ⟨busy, ran, ?_, fun b initial => ?_, fun other isMade => ?_⟩
  · exact cached.cache.congr (by rw [isBusy]; rfl) (by rw [isBusy]; rfl) next
  · rw [dev]
    exact cached.placeholders b initial
  · rw [dev, block]
    exact cached.keys other isMade

/-- Asked for the first time, it gets a buffer whose link is what was in the memory. -/
theorem first (cached : CacheMade nodes made s) (device : call.dev ≠ 0xFFFFFFFF#32)
    (unseen : call.key ∉ made.map GetCall.key) (unused : call.new ∉ nodes ++ made.map GetCall.new) :
    ∃ s', call.run s = some s' ∧ (s'.buffers call.new).next = call.memory.next ∧
      (call.memory.next = none → CacheMade nodes (made ++ [call]) s') := by
  have absent := (cached.mem_keys_iff device).not.mp unseen
  obtain ⟨s', got, appended, longer⟩ := bufferGet_miss cached.cache
    (fun b member both => absent ⟨b, member, both⟩) unused call.memory
  refine ⟨s', congrArg (Option.map Prod.snd) got, by rw [appended.added], fun ends => ?_⟩
  -- the other buffers keep their device and block
  have kept : ∀ b ∈ nodes ++ made.map GetCall.new,
      (s'.buffers b).dev = (s.buffers b).dev ∧ (s'.buffers b).block = (s.buffers b).block := by
    intro b member
    obtain ⟨next, same⟩ := appended.kept b fun isNew => unused (isNew ▸ member)
    rw [same]
    exact ⟨rfl, rfl⟩
  refine ⟨?_, fun b initial => ?_, fun other isMade => ?_⟩
  · rw [map_append, ← append_assoc]
    exact longer ends
  · rw [(kept b (mem_append_left _ initial)).1]
    exact cached.placeholders b initial
  · rcases mem_append.mp isMade with earlier | last
    · obtain ⟨sameDev, sameBlock⟩ :=
        kept other.new (mem_append_right _ (mem_map_of_mem earlier))
      rw [sameDev, sameBlock]
      exact cached.keys other earlier
    · rw [mem_singleton.mp last, appended.added]
      exact ⟨rfl, rfl⟩

end CacheMade

/-! ### Whole sequences -/

/-- After each of the calls the list has a buffer for each first request. -/
def StaysListed (nodes : List BufferPtr) (made calls : List (GetCall Data)) (s : Ide Data) : Prop :=
  ∀ k ≤ calls.length, ∃ s', runGets (calls.take k) s = some s' ∧
    BuffersListed nodes (made ++ firstRequests (made.map GetCall.key) (calls.take k)) s'

theorem staysListed_nil (cached : CacheMade nodes made s) : StaysListed nodes made [] s := by
  intro k _
  refine ⟨s, by rw [take_nil, runGets], ?_⟩
  rw [take_nil, firstRequests, append_nil]
  exact cached.listed

/-- From one call to the next. -/
theorem staysListed_cons_iff (made' : List (GetCall Data)) (cached : CacheMade nodes made s)
    (ran : call.run s = some s')
    (same : ∀ more, made ++ firstRequests (made.map GetCall.key) (call :: more) =
      made' ++ firstRequests (made'.map GetCall.key) more) :
    StaysListed nodes made (call :: calls) s ↔ StaysListed nodes made' calls s' := by
  have after : ∀ k, runGets ((call :: calls).take (k + 1)) s = runGets (calls.take k) s' := by
    intro k
    rw [take_succ_cons, runGets, ran, bind_some]
  constructor
  · intro stays k inside
    have next := stays (k + 1) (Nat.succ_le_succ inside)
    rwa [after, take_succ_cons, same] at next
  · intro stays k inside
    cases k with
    | zero =>
      refine ⟨s, rfl, ?_⟩
      rw [take_zero, firstRequests, append_nil]
      exact cached.listed
    | succ k =>
      rw [after, take_succ_cons, same]
      exact stays k (Nat.le_of_succ_le_succ inside)

/-- The list stays right exactly as long as the new buffers come with a link that is `NULL`, by
induction on the calls. -/
theorem staysListed_iff (cached : CacheMade nodes made s)
    (device : ∀ call ∈ calls, call.dev ≠ 0xFFFFFFFF#32)
    (fresh : (nodes ++ (made ++ firstRequests (made.map GetCall.key) calls).map
      GetCall.new).Nodup) :
    StaysListed nodes made calls s ↔
      ∀ call ∈ firstRequests (made.map GetCall.key) calls, call.memory.next = none := by
  induction calls generalizing made s with
  | nil => exact iff_of_true (staysListed_nil cached) nofun
  | cons call calls ih =>
    obtain ⟨deviceFirst, deviceRest⟩ := forall_mem_cons.mp device
    rw [firstRequests] at fresh ⊢
    by_cases before : call.key ∈ made.map GetCall.key
    · obtain ⟨s', ran, cached'⟩ := cached.again deviceFirst before
      rw [if_pos before] at fresh ⊢
      rw [staysListed_cons_iff made cached ran fun more => by rw [firstRequests, if_pos before]]
      exact ih cached' deviceRest fresh
    · rw [if_neg before] at fresh ⊢
      have spelled : ∀ rest, made ++ call :: rest = (made ++ [call]) ++ rest := by simp
      have keys : made.map GetCall.key ++ [call.key] = (made ++ [call]).map GetCall.key := by
        simp
      rw [spelled, keys] at fresh
      have unused : call.new ∉ nodes ++ made.map GetCall.new := by
        simp only [map_append, append_assoc, map_cons, map_nil, singleton_append] at fresh
        rw [← append_assoc, nodup_middle, nodup_cons] at fresh
        exact fun member => fresh.1 (mem_append_left _ member)
      obtain ⟨s', ran, link, ends⟩ := cached.first deviceFirst before unused
      by_cases isNull : call.memory.next = none
      · rw [staysListed_cons_iff (made ++ [call]) cached ran fun more => by
          rw [firstRequests, if_neg before, spelled, keys], keys, forall_mem_cons,
          and_iff_right isNull]
        exact ih (ends isNull) deviceRest fresh
      · refine iff_of_false (fun stays => ?_) fun all => isNull (all call mem_cons_self)
        obtain ⟨s'', isAfter, listed⟩ := stays 1 (by simp)
        have same : s' = s'' := by
          rw [take_succ_cons, take_zero, runGets, ran] at isAfter
          exact Option.some.inj isAfter
        have linked := listed.linked
        rw [take_succ_cons, take_zero, firstRequests, if_neg before, firstRequests,
          map_append, ← append_assoc, ← same] at linked
        exact isNull (link.symm.trans (Linked.nil_iff.mp linked.after))

/-- After `buffer_init`, the list has the sixteen buffers and then one for each block that was
asked for, after every call, exactly when every buffer that `malloc` returned for one of them
has a link that is `NULL`. -/
theorem buffer_list_iff {list : BufferPtr} {calls : List (GetCall Data)} (s : Ide Data)
    (legal : GetsLegal list calls) :
    StaysListed (List.range' list maxOpBlocks) [] calls (bufferInit list s) ↔
      ∀ call ∈ firstRequests [] calls, call.memory.next = none := by
  obtain ⟨cache, placeholders, _⟩ := cacheList_bufferInit list s
  have start : CacheMade (List.range' list maxOpBlocks) ([] : List (GetCall Data))
      (bufferInit list s) := ⟨by simpa using cache, placeholders, nofun⟩
  exact staysListed_iff start legal.device (by simpa using legal.fresh)

/-- A driver before `buffer_init`. -/
def unsetIde : Ide Nat :=
  ⟨fun _ => ⟨0#8, 0#32, 0#32, none, none, 0⟩, none, none, 0, false, [], fun _ => 0⟩

/-- A call for a block of device 1 that gets the memory at `new`, with this link in it. -/
def getBlock (block : U32) (new : BufferPtr) (next : Option BufferPtr) : GetCall Nat :=
  ⟨1#32, block, new, ⟨0xAA#8, 0#32, 0#32, next, none, 0⟩⟩

/-- Two blocks, the first of them twice. -/
theorem two_blocks_listed :
    StaysListed (List.range' 0 16) []
      [getBlock 3#32 16 none, getBlock 4#32 17 none, getBlock 3#32 18 (some 5)]
      (bufferInit 0 unsetIde) :=
  (buffer_list_iff unsetIde ⟨by decide, by decide⟩).mpr (by decide)

/-- One block, in memory whose link leads back to it. -/
theorem recycled_link_kept :
    ¬ ∀ (list : BufferPtr) (calls : List (GetCall Nat)) (s : Ide Nat), GetsLegal list calls →
      StaysListed (List.range' list maxOpBlocks) [] calls (bufferInit list s) := by
  intro all
  obtain ⟨s', got, listed⟩ := all 0 [getBlock 3#32 16 (some 16)] unsetIde ⟨by decide, by decide⟩ 1
    (by decide)
  have link : (runGets [getBlock 3#32 16 (some 16)] (bufferInit 0 unsetIde)).map
      (fun s => (s.buffers 16).next) = some (some 16) := by decide +kernel
  have linked : Linked _ s'.cacheList (List.range' 0 16 ++ 16 :: []) := listed.linked
  have ends : (s'.buffers 16).next = none := Linked.nil_iff.mp linked.after
  have kept := (congrArg (Option.map fun s : Ide Nat => (s.buffers 16).next) got).symm.trans link
  exact nomatch ends.symm.trans (Option.some.inj kept)

end Crunchy
