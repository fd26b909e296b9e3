import NgxRtmp.Mp4Landing

namespace NgxRtmp.Mp4

open RunLength

-- What ISO 14496-12 says of sample `k`, in the widths the cursor has.
structure Assigned (t : Track) (b : Tables) (k : Nat) (cr : Cursor) : Prop where
  timestamp : cr.timestamp = UInt32.ofNat (b.dts k)
  offset : ∃ offset, b.Stored k offset ∧ cr.offset = UInt64.ofNat offset
  size : b.sampleSizes[k]? = some cr.size
  key : ∀ keys, t.keys = some keys → (cr.key = true ↔ ∃ ke ∈ keys, ke.toNat = k+1)
  delay : match t.delays with
    | none => cr.delay = 0
    | some delays => Unbroken ((delayRuns delays).map Prod.fst) k → (expand (delayRuns delays))[k]? = some cr.delay

theorem At.assigned (ok : Consistent t b n) (at_k : At t b k cr) (inside : k < n) : Assigned t b k cr := by
  obtain ⟨⟨_,_,stamp⟩,key,⟨_,sits,_⟩,⟨size,_⟩,⟨base,chunk,start⟩,delay⟩ := at_k
  refine ⟨stamp,⟨_,⟨_,_,base,sits,chunk,rfl⟩,start⟩,size,?_,?_⟩
  · intro keys table
    rw [KeyAt,table] at key
    exact key.2
  · rw [DelayAt] at delay
    cases table : t.delays with
    | none =>
      rw [table] at delay
      exact delay.1
    | some delays =>
      rw [table] at delay
      intro unbroken
      obtain ⟨j,c,sits⟩ := sits_total (show k < ((delayRuns delays).map Prod.fst).sum by rw [ok.delays delays table]; exact inside)
      obtain ⟨place,_⟩ := sits_unique ((walked_sits sits).mpr unbroken) delay.1
      rw [expand_at sits,place,delay.2]

section
variable {t : Track} {b : Tables} {n : Nat} (ok : Consistent t b n)
include ok

theorem seekTime_zero (some_samples : 0 < n) : seekTime t 0 {} = (true,{}) := by
  have total := ok.timeSamples
  have positive := ok.timePositive
  simp only [seekTime,ok.times]
  cases entries : b.times with
  | nil =>
    rw [entries] at total
    simp only [timeRuns,List.map_nil,List.sum_nil] at total
    omega
  | cons te rest =>
    have delta := (positive te (by rw [entries]; exact List.mem_cons_self)).2
    have moving : te.sampleDelta ≠ 0 := fun none => by rw [none] at delta; cases delta
    simp [seekTimeLoop,moving]

theorem timeAt_zero (some_samples : 0 < n) (first : cr.pos = 0) (place : cr.timePos = 0 ∧ cr.timeCount = 0 ∧ cr.timestamp = 0) :
    TimeAt b 0 cr := by
  obtain ⟨timePos,timeCount,stamp⟩ := place
  refine ⟨first,?_,by rw [stamp]; rfl⟩
  rw [timePos,timeCount]
  refine sits_start ok.times_positive fun none => ?_
  have total := ok.timeSamples
  rw [none] at total
  simp only [List.sum_nil] at total
  omega

theorem seekTrack_zero (some_samples : 0 < n) : ∃ landed, seekTrack t 0 = (true,landed) ∧ At t b 0 landed := by
  have start : seekTime t (fromRtmpTimestamp t 0) {} = (true,{}) := by
    have zero : fromRtmpTimestamp t 0 = 0 := by simp [fromRtmpTimestamp]
    rw [zero,seekTime_zero ok some_samples]
  cases table : t.keys with
  | none =>
    have keyed : andThen (seekTime t (fromRtmpTimestamp t 0) {}) (seekKey t) = (true,{}) := by
      simp [start,andThen,seekKey,table]
    obtain ⟨landed,moved,landing⟩ := seekTrack_lands ok keyed ⟨rfl,rfl,rfl,rfl,rfl⟩ some_samples
    exact ⟨landed,moved,landing.at (timeAt_zero ok some_samples rfl ⟨rfl,rfl,rfl⟩) (by simp [KeyAt,table]) (fun _ _ _ _ before => before)⟩
  | some keys =>
    obtain ⟨rest,rfl⟩ := List.head?_eq_some_iff.mp (ok.keys keys table).1
    have keyed : andThen (seekTime t (fromRtmpTimestamp t 0) {}) (seekKey t) = (true,{key:=true}) := by
      simp [start,andThen,seekKey,table,nextTimes]
    obtain ⟨landed,moved,landing⟩ := seekTrack_lands ok keyed ⟨rfl,rfl,rfl,rfl,rfl⟩ some_samples
    exact ⟨landed,moved,landing.at (timeAt_zero ok some_samples rfl ⟨rfl,rfl,rfl⟩) (by simp [KeyAt,table]) (fun _ _ _ _ before => before)⟩

theorem iterate_at (inside : k < n) : (iterate t k).1 = true ∧ At t b k (iterate t k).2 := by
  induction k with
  | zero =>
    obtain ⟨landed,moved,at_zero⟩ := seekTrack_zero ok inside
    rw [iterate,moved]
    exact ⟨rfl,at_zero⟩
  | succ k ih => exact next_steps ok (ih (Nat.lt_of_succ_lt inside)).2 inside

theorem iterate_assigned (inside : k < n) : (iterate t k).1 = true ∧ Assigned t b k (iterate t k).2 := by
  obtain ⟨moved,at_k⟩ := iterate_at ok inside
  exact ⟨moved,at_k.assigned ok inside⟩

end

-- Four samples in two chunks, the first and the third of them keys.
def sampleTables : Tables :=
  {times:=[⟨2,10⟩,⟨2,20⟩],chunks:=[⟨1,1⟩,⟨2,3⟩],sizes:=⟨0,4,[5,6,7,8]⟩,offsets:=[100,200]}

def sampleTrack : Track :=
  {timeScale:=1000,times:=some sampleTables.times,delays:=some [⟨1,0⟩,⟨3,10⟩],keys:=some [1,3],chunks:=some sampleTables.chunks
   sizes:=some sampleTables.sizes,sizes2:=none,offsets:=some [100,200],offsets64:=none}

theorem sample_consistent : Consistent sampleTrack sampleTables 4 := by
  refine ⟨rfl,rfl,rfl,.inl ⟨_,rfl,rfl⟩,?_,rfl,rfl,?_,?_,?_,rfl,rfl,fun _ => rfl,?_,?_⟩
  · decide
  · decide
  · decide
  · decide
  · intro keys table
    cases table
    decide
  · intro delays table
    cases table
    decide

theorem iterate_assigned_last : (iterate sampleTrack 3).1 = true ∧ Assigned sampleTrack sampleTables 3 (iterate sampleTrack 3).2 :=
  iterate_assigned sample_consistent (by decide)

-- Three samples that last 2^31 each, and a table of delays with an empty entry.
def longTables : Tables := {times:=[⟨3,0x80000000⟩],chunks:=[⟨1,3⟩],sizes:=⟨9,3,[]⟩,offsets:=[100]}

def emptyDelay : List DelayEntry := [⟨1,10⟩,⟨0,99⟩,⟨2,20⟩]

def longTrack : Track :=
  {timeScale:=1000,times:=some longTables.times,delays:=some emptyDelay,keys:=none,chunks:=some longTables.chunks
   sizes:=some longTables.sizes,sizes2:=none,offsets:=some [100],offsets64:=none}

theorem long_consistent : Consistent longTrack longTables 3 := by
  refine ⟨rfl,rfl,rfl,.inl ⟨_,rfl,rfl⟩,?_,rfl,rfl,?_,?_,?_,rfl,rfl,?_,?_,?_⟩
  · decide
  · decide
  · decide
  · decide
  · intro none
    cases none
  · intro keys table
    cases table
  · intro delays table
    cases table
    rfl

-- The cursor's timestamp wraps, and next_delay enters the empty entry.
theorem iteration_wraps : Consistent longTrack longTables 3 ∧ longTables.dts 2 = 2^32 ∧ (iterate longTrack 2).2.timestamp.toNat = 0 ∧
    (expand (delayRuns emptyDelay))[1]? = some 20 ∧ (iterate longTrack 1).1 = true ∧ (iterate longTrack 1).2.delay = 99 :=
  ⟨long_consistent,by decide +kernel⟩

end NgxRtmp.Mp4
