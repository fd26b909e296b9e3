import NgxRtmp.Mp4Iteration

namespace NgxRtmp.Mp4

open RunLength List

-- All of the cursor that says where it is; what is left out tells how it came there.
def Same (cr cr' : Cursor) : Prop :=
  ∃ lastTimestamp notFirst valid, cr' = {cr with lastTimestamp:=lastTimestamp,notFirst:=notFirst,valid:=valid}

def stopsInside (timestamp : UInt32) : UInt32 → List TimeEntry → Bool
  | _,[] => true
  | start,te::rest =>
    let dt := te.sampleDelta*te.sampleCount
    if start+dt ≥ timestamp then decide (timestamp.toNat < start.toNat+te.sampleCount.toNat*te.sampleDelta.toNat)
    else stopsInside timestamp (start+dt) rest

-- The samples up to the cursor are more than its place tells, or its entry was used up.
def Late (b : Tables) (cr : Cursor) : Prop :=
  (((timeRuns b.times).map Prod.fst).take cr.timePos).sum+cr.timeCount < cr.pos ∨
  (((timeRuns b.times).map Prod.fst).take cr.timePos).sum+cr.timeCount = cr.pos ∧
    ∃ te, b.times[cr.timePos]? = some te ∧ te.sampleCount.toNat ≤ cr.timeCount

def following (t : Track) : Nat → Cursor → Cursor
  | 0,cr => cr
  | m+1,cr => (next t (following t m cr)).2

theorem At.same (first : At t b k cr) (second : At t b k cr') : Same cr cr' := by
  obtain ⟨⟨pos,time,stamp⟩,key,⟨chunk,sample,d,run⟩,⟨size,sizePos⟩,⟨base,start,offset⟩,delay⟩ := first
  obtain ⟨⟨pos',time',stamp'⟩,key',⟨chunk',sample',d',run'⟩,⟨size',sizePos'⟩,⟨base',start',offset'⟩,delay'⟩ := second
  obtain ⟨timePos,timeCount⟩ := sits_unique time' time
  obtain ⟨number,chunkCount⟩ := sits_unique sample' sample
  have sameChunk : cr'.chunk = cr.chunk := by omega
  rw [sameChunk] at run' start'
  obtain ⟨chunkPos,_⟩ := sits_unique run' run
  obtain rfl := Option.some.inj (start'.symm.trans start)
  have sameOffset : cr'.offset = cr.offset := by rw [offset',offset,chunkCount]
  have sameSize : cr'.size = cr.size := Option.some.inj (size'.symm.trans size)
  have sameKey : cr'.keyPos = cr.keyPos ∧ cr'.key = cr.key := by
    unfold KeyAt at key key'
    cases table : t.keys with
    | none =>
      rw [table] at key key'
      exact ⟨key'.2.trans key.2.symm,key'.1.trans key.1.symm⟩
    | some keys =>
      rw [table] at key key'
      exact ⟨key'.1.trans key.1.symm,Bool.eq_iff_iff.mpr (key'.2.trans key.2.symm)⟩
  have sameDelay : cr'.delayPos = cr.delayPos ∧ cr'.delayCount = cr.delayCount ∧ cr'.delay = cr.delay := by
    unfold DelayAt at delay delay'
    cases table : t.delays with
    | none =>
      rw [table] at delay delay'
      exact ⟨delay'.2.1.trans delay.2.1.symm,delay'.2.2.trans delay.2.2.symm,delay'.1.trans delay.1.symm⟩
    | some delays =>
      rw [table] at delay delay'
      obtain ⟨place,count⟩ := sits_unique delay'.1 delay.1
      have value := delay'.2
      rw [place] at value
      exact ⟨place,count,Option.some.inj (value.symm.trans delay.2)⟩
  refine ⟨cr'.lastTimestamp,cr'.notFirst,cr'.valid,?_⟩
  cases cr
  cases cr'
  simp_all

theorem keys_between {keys : List UInt32} (entry : keys[(keys.takeWhile fun ke => ke.toNat ≤ k).length]? = some key) :
    k < key.toNat ∧ ∀ later, k ≤ later → later < key.toNat →
      (keys.takeWhile fun ke => ke.toNat ≤ later).length = (keys.takeWhile fun ke => ke.toNat ≤ k).length := by
  induction keys with
  | nil => simp at entry
  | cons first keys ih =>
    by_cases passed : first.toNat ≤ k
    · simp only [takeWhile_cons,passed,decide_true,if_true,length_cons,List.getElem?_cons_succ] at entry ⊢
      obtain ⟨above,same⟩ := ih entry
      refine ⟨above,fun later le less => ?_⟩
      rw [if_pos (by simp; omega),length_cons,same later le less]
    · simp only [takeWhile_cons,passed,decide_false,Bool.false_eq_true,if_false,length_nil,List.getElem?_cons_zero,
        Option.some.injEq] at entry ⊢
      subst entry
      refine ⟨by omega,fun later _ less => ?_⟩
      rw [if_neg (by simp; omega),length_nil]

theorem Landed.late (landing : Landed t b cr landed) (late : Late b cr) : Late b landed := by
  obtain ⟨pos,timePos,timeCount,_⟩ := landing.time
  unfold Late at late ⊢
  rwa [pos,timePos,timeCount]

theorem andThen_ok (done : (andThen moved f).1 = true) : ∃ cr, moved = (true,cr) ∧ (f cr).1 = true := by
  obtain ⟨ok,cr⟩ := moved
  cases ok with
  | false => cases done
  | true => exact ⟨cr,rfl,done⟩

theorem late_not_at (late : Late b cr) : ¬ TimeAt b k cr := by
  rintro ⟨pos,sits,_⟩
  obtain ⟨m,entry,less,sum⟩ := sits_iff.mp sits
  rcases late with before | ⟨_,te,found,used⟩
  · omega
  · simp only [timeRuns,List.getElem?_map,found,Option.map_some,Option.some.injEq] at entry
    omega

-- Without overflow the timestamp must not be the one at which an entry ends.
theorem stopsInside_iff (rest : List TimeEntry) (start : UInt32) (small : start.toNat+weight (timeRuns rest) < 2^32) :
    stopsInside timestamp start rest = true ↔
      ∀ j < rest.length, timestamp.toNat ≠ start.toNat+weight ((timeRuns rest).take (j+1)) := by
  induction rest generalizing start with
  | nil => simp [stopsInside]
  | cons te rest ih =>
    have runs : timeRuns (te::rest) = (te.sampleCount.toNat,te.sampleDelta.toNat)::timeRuns rest := rfl
    rw [runs,weight_cons] at small
    simp only at small
    have reached : (start+te.sampleDelta*te.sampleCount).toNat = start.toNat+te.sampleCount.toNat*te.sampleDelta.toNat := by
      rw [UInt32.toNat_add,UInt32.toNat_mul,mul_comm,Nat.mod_eq_of_lt (show te.sampleCount.toNat*te.sampleDelta.toNat < 2^32 by omega)]
      exact Nat.mod_eq_of_lt (by omega)
    simp only [stopsInside,runs,take_succ_cons,weight_cons]
    by_cases stops : start+te.sampleDelta*te.sampleCount ≥ timestamp
    · rw [if_pos stops,decide_eq_true_iff]
      have le := UInt32.le_iff_toNat_le.mp stops
      rw [reached] at le
      constructor
      · intro less j _
        omega
      · intro other
        have here := other 0 (Nat.zero_lt_succ _)
        simp only [take_zero,weight,map_nil,sum_nil,add_zero] at here
        omega
    · rw [if_neg stops,ih _ (by rw [reached]; omega),reached]
      have less := UInt32.lt_iff_toNat_lt.mp (UInt32.not_le.mp stops)
      rw [reached] at less
      constructor
      · intro other j inside
        cases j with
        | zero =>
          simp only [take_zero,weight,map_nil,sum_nil,add_zero]
          omega
        | succ j =>
          have there := other j (Nat.lt_of_succ_lt_succ inside)
          omega
      · intro other j inside
        have there := other (j+1) (Nat.succ_lt_succ inside)
        omega

structure Passed (b : Tables) (before rest : List TimeEntry) (cr : Cursor) : Prop where
  listed : b.times = before ++ rest
  place : cr.timePos = before.length
  pos : cr.pos = ((timeRuns before).map Prod.fst).sum
  stamp : cr.timestamp = UInt32.ofNat (weight (timeRuns before))

theorem stop_at (passed : Passed b before (te::rest) cr) (count : UInt32) :
    if count.toNat < te.sampleCount.toNat
    then TimeAt b (cr.pos+count.toNat)
      {cr with timeCount:=count.toNat,timestamp:=cr.timestamp+te.sampleDelta*count,pos:=cr.pos+count.toNat}
    else Late b {cr with timeCount:=count.toNat,timestamp:=cr.timestamp+te.sampleDelta*count,pos:=cr.pos+count.toNat} := by
  obtain ⟨listed,place,pos,stamp⟩ := passed
  have runs : timeRuns b.times = timeRuns before ++ (te.sampleCount.toNat,te.sampleDelta.toNat)::timeRuns rest := by
    rw [listed]
    simp [timeRuns]
  have width : (timeRuns before).length = cr.timePos := by simp [timeRuns,place]
  have start : (((timeRuns b.times).map Prod.fst).take cr.timePos).sum = cr.pos := by
    rw [← map_take,runs,← width,take_left,pos]
  have entry : (timeRuns b.times)[cr.timePos]? = some (te.sampleCount.toNat,te.sampleDelta.toNat) := by
    rw [runs,← width]
    simp
  split
  · rename_i within
    have sits : Sits ((timeRuns b.times).map Prod.fst) (cr.pos+count.toNat) cr.timePos count.toNat :=
      sits_iff.mpr ⟨te.sampleCount.toNat,by simp [entry],within,by rw [start]⟩
    refine ⟨rfl,sits,?_⟩
    simp only [Tables.dts]
    rw [take_expand_sum sits entry,runs,← width,take_left,UInt32.ofNat_add,UInt32.ofNat_mul,UInt32.ofNat_toNat,
      UInt32.ofNat_toNat,stamp,UInt32.mul_comm]
  · rename_i beyond
    refine .inr ⟨by simp only [start],te,?_,Nat.not_lt.mp beyond⟩
    simp [listed,place]

theorem passed_on (passed : Passed b before (te::rest) cr) : Passed b (before ++ [te]) rest {cr with
    timestamp:=cr.timestamp+te.sampleDelta*te.sampleCount,pos:=cr.pos+te.sampleCount.toNat,timePos:=cr.timePos+1} := by
  obtain ⟨listed,place,pos,stamp⟩ := passed
  have runs : timeRuns (before ++ [te]) = timeRuns before ++ [(te.sampleCount.toNat,te.sampleDelta.toNat)] := by simp [timeRuns]
  refine ⟨by rw [listed]; simp,by simp [place],by rw [runs]; simp [pos],?_⟩
  rw [runs,weight_append,UInt32.ofNat_add,stamp]
  simp [weight,UInt32.mul_comm]

section
variable {t : Track} {b : Tables} {n : Nat} (ok : Consistent t b n)
include ok

theorem nextTime_late (late : Late b cr) : Late b (nextTime t cr).2 := by
  simp only [nextTime,ok.times]
  cases entry : b.times[cr.timePos]? with
  | none => exact late
  | some te =>
    have turned : (((timeRuns b.times).map Prod.fst).take (cr.timePos+1)).sum =
        (((timeRuns b.times).map Prod.fst).take cr.timePos).sum+te.sampleCount.toNat :=
      take_sum_succ (by simp [timeRuns,entry])
    have behind : (((timeRuns b.times).map Prod.fst).take cr.timePos).sum+cr.timeCount < cr.pos ∨
        (((timeRuns b.times).map Prod.fst).take cr.timePos).sum+cr.timeCount = cr.pos ∧ te.sampleCount.toNat ≤ cr.timeCount := by
      rcases late with before | ⟨reached,te',found,used⟩
      · exact .inl before
      · obtain rfl := Option.some.inj (entry.symm.trans found)
        exact .inr ⟨reached,used⟩
    simp only
    split
    · left
      simp only [turned]
      omega
    · left
      simp only
      omega

theorem nextTimes_late (d : Nat) : ∀ {cr}, Late b cr → Late b (nextTimes t d cr) := by
  induction d with
  | zero => intro cr late; exact late
  | succ d ih => intro cr late; exact ih (nextTime_late ok late)

theorem nextTimes_steps (d : Nat) : ∀ {k cr}, TimeAt b k cr → k < n →
    if k+d < n then TimeAt b (k+d) (nextTimes t d cr) else n ≤ (nextTimes t d cr).pos := by
  induction d with
  | zero =>
    intro k cr at_k inside
    rw [add_zero,if_pos inside]
    exact at_k
  | succ d ih =>
    intro k cr at_k inside
    by_cases more : k+1 < n
    · obtain ⟨_,_,_,moved,time⟩ := nextTime_steps ok at_k more
      have rest := ih (show TimeAt b (k+1) (nextTime t cr).2 by rw [moved]; exact time) more
      rw [add_right_comm,add_assoc] at rest
      exact rest
    · rw [if_neg (by omega),nextTimes]
      obtain ⟨te,entry,_⟩ := time_entry at_k.2.1
      have last : (nextTime t cr).2.pos = k+1 := by
        simp only [nextTime,ok.times,entry]
        split <;> simp [at_k.1]
      obtain ⟨_,_,_,_,_,_,le,moved⟩ := nextTimes_frame (nextTime t cr).2
      rw [moved]
      simp only
      omega

theorem seekKey_goes (first : cr.keyPos = 0 ∧ cr.key = false) : ∃ d keyPos key,
    seekKey t cr = (true,nextTimes t d {cr with keyPos:=keyPos,key:=key}) ∧ KeyAt t (cr.pos+d) {cr with keyPos:=keyPos,key:=key} := by
  unfold KeyAt
  cases table : t.keys with
  | none => exact ⟨0,cr.keyPos,cr.key,by simp [seekKey,table,nextTimes],first.2,first.1⟩
  | some keys =>
    have sorted := (ok.keys keys table).2
    simp only [seekKey,table,first.1,drop_zero,zero_add]
    cases entry : keys[(keys.takeWhile fun ke => ke.toNat ≤ cr.pos).length]? with
    | none =>
      refine ⟨0,_,cr.key,rfl,rfl,?_⟩
      rw [add_zero,(keys_at cr.pos sorted).1,entry]
      simp [first.2]
    | some ke =>
      obtain ⟨above,same⟩ := keys_between entry
      have reached : cr.pos+(ke.toNat-cr.pos-1)+1 = ke.toNat := by omega
      refine ⟨_,_,true,rfl,(same _ (Nat.le_add_right _ _) (by omega)).symm,?_⟩
      rw [reached]
      exact ⟨fun _ => ⟨ke,mem_of_getElem? entry,rfl⟩,fun _ => rfl⟩

theorem seekKey_lands (fresh : Fresh cr) (first : cr.keyPos = 0 ∧ cr.key = false) : ∃ cr', seekKey t cr = (true,cr') ∧ Fresh cr' ∧
    (TimeAt b k cr → k < n → cr'.pos < n → TimeAt b cr'.pos cr' ∧ KeyAt t cr'.pos cr') ∧ (Late b cr → Late b cr') := by
  obtain ⟨d,keyPos,key,moved,at_key⟩ := seekKey_goes ok first
  obtain ⟨_,_,_,_,_,_,_,frame⟩ := nextTimes_frame {cr with keyPos:=keyPos,key:=key}
  refine ⟨_,moved,by rw [frame]; exact ⟨fresh.chunkPos,fresh.sizePos,fresh.delay⟩,?_,?_⟩
  · intro time inside landed
    obtain rfl := time.1
    have steps := nextTimes_steps ok d (show TimeAt b cr.pos {cr with keyPos:=keyPos,key:=key} from time) inside
    split at steps
    · refine ⟨by rw [steps.1]; exact steps,?_⟩
      rw [steps.1,frame]
      exact at_key
    · omega
  · intro late
    exact nextTimes_late ok d (show Late b {cr with keyPos:=keyPos,key:=key} from late)

theorem seekTimeLoop_stops (timestamp : UInt32) (rest before : List TimeEntry) (cr : Cursor) (passed : Passed b before rest cr)
    (le : cr.timestamp ≤ timestamp) : ∃ timePos timeCount stamp pos, seekTimeLoop timestamp rest cr =
      (true,{cr with timePos:=timePos,timeCount:=timeCount,timestamp:=stamp,pos:=pos}) ∧ (timePos < b.times.length →
        (stopsInside timestamp cr.timestamp rest = true →
          TimeAt b pos {cr with timePos:=timePos,timeCount:=timeCount,timestamp:=stamp,pos:=pos}) ∧
        (stopsInside timestamp cr.timestamp rest = false →
          Late b {cr with timePos:=timePos,timeCount:=timeCount,timestamp:=stamp,pos:=pos})) := by
  induction rest generalizing before cr with
  | nil =>
    refine ⟨_,_,_,_,rfl,fun less => ?_⟩
    have last := passed.listed
    rw [append_nil] at last
    rw [last,← passed.place] at less
    exact absurd less (lt_irrefl _)
  | cons te rest ih =>
    obtain ⟨_,moving⟩ := ok.timePositive te (by rw [passed.listed]; simp)
    have delta : te.sampleDelta ≠ 0 := fun none => by rw [none] at moving; cases moving
    simp only [seekTimeLoop,stopsInside]
    by_cases stops : cr.timestamp+te.sampleDelta*te.sampleCount ≥ timestamp
    · rw [if_pos stops,if_pos stops,if_neg delta]
      have distance : ((timestamp-cr.timestamp)/te.sampleDelta).toNat =
          (timestamp.toNat-cr.timestamp.toNat)/te.sampleDelta.toNat := by
        rw [UInt32.toNat_div,UInt32.toNat_sub_of_le _ _ le]
      have reached : ((timestamp-cr.timestamp)/te.sampleDelta).toNat < te.sampleCount.toNat ↔
          timestamp.toNat < cr.timestamp.toNat+te.sampleCount.toNat*te.sampleDelta.toNat := by
        have low := UInt32.le_iff_toNat_le.mp le
        rw [distance,Nat.div_lt_iff_lt_mul moving]
        omega
      have stop := stop_at passed ((timestamp-cr.timestamp)/te.sampleDelta)
      refine ⟨_,_,_,_,rfl,fun _ => ⟨fun within => ?_,fun beyond => ?_⟩⟩
      · rwa [if_pos (reached.mpr (of_decide_eq_true within))] at stop
      · rwa [if_neg (fun less => of_decide_eq_false beyond (reached.mp less))] at stop
    · rw [if_neg stops,if_neg stops]
      obtain ⟨timePos,timeCount,stamp,pos,moved,found⟩ := ih _ _ (passed_on passed) (UInt32.le_of_lt (UInt32.not_le.mp stops))
      exact ⟨timePos,timeCount,stamp,pos,moved,found⟩

theorem seekTime_stops (moved : seekTime t timestamp {} = (true,cr)) : Fresh cr ∧ (cr.keyPos = 0 ∧ cr.key = false) ∧
    (stopsInside timestamp 0 b.times = true → TimeAt b cr.pos cr) ∧ (stopsInside timestamp 0 b.times = false → Late b cr) := by
  obtain ⟨timePos,timeCount,stamp,pos,loop,found⟩ := seekTimeLoop_stops ok timestamp b.times [] {} ⟨rfl,rfl,rfl,rfl⟩
    (UInt32.le_iff_toNat_le.mpr (Nat.zero_le _))
  simp only [seekTime,ok.times,loop,Prod.mk.injEq,decide_eq_true_eq] at moved
  obtain ⟨inside,rfl⟩ := moved
  exact ⟨⟨rfl,rfl,rfl,rfl,rfl⟩,⟨rfl,rfl⟩,found inside⟩

theorem seekTrack_stops (sought : seekTrack t timestamp = (true,cr)) : cr.pos < n ∧ DelayAt id t cr.pos cr ∧
    (stopsInside (fromRtmpTimestamp t timestamp) 0 b.times = true → Placed t b cr.pos cr) ∧
    (stopsInside (fromRtmpTimestamp t timestamp) 0 b.times = false → Late b cr) := by
  have done : (andThen (andThen (andThen (andThen (seekTime t (fromRtmpTimestamp t timestamp) {}) (seekKey t))
      (seekChunk t)) (seekSize t)) (seekDelay t)).1 = true := by
    unfold seekTrack at sought
    simp only at sought
    split at sought
    · assumption
    · rw [sought]
  obtain ⟨_,sized,_⟩ := andThen_ok done
  obtain ⟨_,chunked,_⟩ := andThen_ok (show (andThen (andThen _ _) _).1 = true by rw [sized])
  obtain ⟨keyed,went,found⟩ := andThen_ok (show (andThen _ _).1 = true by rw [chunked])
  obtain ⟨timed,time,_⟩ := andThen_ok (show (andThen _ _).1 = true by rw [went])
  obtain ⟨fresh,first,within,late⟩ := seekTime_stops ok time
  obtain ⟨reached,moved,untouched,steps,behind⟩ := seekKey_lands ok (k:=timed.pos) fresh first
  have same : andThen (seekTime t (fromRtmpTimestamp t timestamp) {}) (seekKey t) = (true,reached) := by
    rw [time]
    exact moved
  obtain rfl : reached = keyed := (Prod.mk.inj (same.symm.trans went)).2
  have inside : reached.pos < n := by
    refine Nat.not_le.mp fun beyond => ?_
    rw [seekChunk_fails ok untouched.chunkPos beyond] at found
    cases found
  obtain ⟨landed,arrived,landing⟩ := seekTrack_lands ok same untouched inside
  obtain rfl : landed = cr := (Prod.mk.inj (arrived.symm.trans sought)).2
  rw [landing.time.1]
  refine ⟨inside,landing.delay,fun stop => ?_,fun stop => landing.late (behind (late stop))⟩
  have start := sits_lt (within stop).2.1
  rw [ok.timeSamples] at start
  obtain ⟨at_time,at_key⟩ := steps (within stop) start inside
  exact landing.placed at_time at_key

theorem following_at (at_k : At t b k cr) : k+m < n → At t b (k+m) (following t m cr) := by
  induction m with
  | zero => intro _; exact at_k
  | succ m ih => intro inside; exact (next_steps ok (ih (by omega)) inside).2

-- Its timestamp falls inside a time entry, not on the end of one, and no empty ctts entry is on the
-- way.
theorem seek_same_iff (sought : seekTrack t timestamp = (true,cr)) :
    (Same cr (iterate t cr.pos).2 ↔ stopsInside (fromRtmpTimestamp t timestamp) 0 b.times = true ∧ t.Unbroken cr.pos) ∧
    (Same cr (iterate t cr.pos).2 → ∀ m, cr.pos+m < n → Same (following t m cr) (iterate t (cr.pos+m)).2) ∧
    (b.dts n < 2^32 → (stopsInside (fromRtmpTimestamp t timestamp) 0 b.times = true ↔
      ∀ j < b.times.length, (fromRtmpTimestamp t timestamp).toNat ≠ b.dts (((timeRuns b.times).map Prod.fst).take (j+1)).sum)) := by
  obtain ⟨inside,delay,placed,late⟩ := seekTrack_stops ok sought
  have iterated := (iterate_at ok inside).2
  have needed : Same cr (iterate t cr.pos).2 → stopsInside (fromRtmpTimestamp t timestamp) 0 b.times = true ∧ t.Unbroken cr.pos := by
    rintro ⟨_,_,_,moved⟩
    constructor
    · have time := iterated.time
      rw [moved] at time
      cases stop : stopsInside (fromRtmpTimestamp t timestamp) 0 b.times with
      | true => rfl
      | false => exact absurd time (late_not_at (late stop))
    · refine (delay.walks iterated.delay).mp ?_
      rw [moved]
      exact ⟨rfl,rfl⟩
  refine ⟨⟨needed,fun ⟨within,unbroken⟩ => ((placed within).at delay unbroken).same iterated⟩,?_,?_⟩
  · intro same m more
    obtain ⟨within,unbroken⟩ := needed same
    exact (following_at ok ((placed within).at delay unbroken) more).same (iterate_at ok more).2
  · intro small
    have times : ∀ j, b.dts (((timeRuns b.times).map Prod.fst).take j).sum = weight ((timeRuns b.times).take j) := by
      intro j
      rw [Tables.dts,take_expand,expand_sum]
    have total : weight (timeRuns b.times) = b.dts n := by
      rw [Tables.dts,← ok.timeSamples,← expand_length,take_length,expand_sum]
    simp only [times]
    rw [stopsInside_iff _ _ (by rw [total]; simpa using small)]
    simp

end

theorem seekTimeLoop_valid (timestamp : UInt32) (rest : List TimeEntry) (cr : Cursor) :
    (seekTimeLoop timestamp rest cr).2.valid = cr.valid := by
  induction rest generalizing cr with
  | nil => rfl
  | cons te rest ih =>
    unfold seekTimeLoop
    dsimp only
    split
    · split
      · rfl
      · rfl
    · exact ih _

theorem seekTime_valid (t : Track) (timestamp : UInt32) (cr : Cursor) : (seekTime t timestamp cr).2.valid = cr.valid := by
  unfold seekTime
  split
  · rfl
  · rename_i times _
    have kept := seekTimeLoop_valid timestamp times cr
    split
    · rename_i ended
      rw [ended] at kept
      exact kept
    · rename_i ended
      rw [ended] at kept
      exact kept

theorem seekKey_valid (t : Track) (cr : Cursor) : (seekKey t cr).2.valid = cr.valid := by
  unfold seekKey
  split
  · rfl
  · dsimp only
    split
    · rfl
    · dsimp only
      obtain ⟨_,_,_,_,_,_,_,frame⟩ := nextTimes_frame _
      rw [frame]

theorem updateOffset_valid : (updateOffset t cr).2.valid = cr.valid := by
  unfold updateOffset
  split
  · rfl
  · split
    · split <;> rfl
    · split
      · rfl
      · split <;> rfl

theorem seekChunk_valid (t : Track) (cr : Cursor) : (seekChunk t cr).2.valid = cr.valid := by
  unfold seekChunk
  split
  · rfl
  · rfl
  · dsimp only
    split
    · rfl
    · exact updateOffset_valid

theorem seekSize_valid (t : Track) (cr : Cursor) : (seekSize t cr).2.valid = cr.valid := by
  unfold seekSize
  split
  · rfl
  · split
    · split
      · rfl
      · split <;> rfl
    · split
      · split <;> rfl
      · rfl

theorem seekDelayLoop_valid (delays : List DelayEntry) (pos : UInt32) (cr : Cursor) :
    (seekDelayLoop delays pos cr).valid = cr.valid := by
  induction delays generalizing pos cr with
  | nil => rfl
  | cons de rest ih =>
    unfold seekDelayLoop
    split
    · rfl
    · exact ih _ _

theorem andThen_valid (keeps : ∀ cr, (f cr).2.valid = cr.valid) (moved : Moved) : (andThen moved f).2.valid = moved.2.valid := by
  obtain ⟨done,cr⟩ := moved
  cases done with
  | true => exact keeps cr
  | false => rfl

theorem seekTrack_valid : (seekTrack t timestamp).2.valid = (seekTrack t timestamp).1 := by
  unfold seekTrack
  dsimp only
  split
  · rfl
  · rename_i failed
    have delays : ∀ cr, (seekDelay t cr).2.valid = cr.valid := by
      intro cr
      unfold seekDelay
      split
      · rfl
      · exact seekDelayLoop_valid _ 0 cr
    rw [Bool.eq_false_iff.mpr failed,andThen_valid delays,andThen_valid (seekSize_valid t),andThen_valid (seekChunk_valid t),
      andThen_valid (seekKey_valid t),seekTime_valid]

theorem seek_same_iff_between : seekTrack sampleTrack 15 = (true,(seekTrack sampleTrack 15).2) ∧
    Same (seekTrack sampleTrack 15).2 (iterate sampleTrack (seekTrack sampleTrack 15).2.pos).2 := by
  have sought : seekTrack sampleTrack 15 = (true,(seekTrack sampleTrack 15).2) := by decide +kernel
  refine ⟨sought,(seek_same_iff sample_consistent sought).1.mpr ⟨by decide +kernel,?_⟩⟩
  intro delays table i empty _
  cases table
  match i with
  | 0 => cases empty
  | 1 => cases empty
  | i+2 => cases empty

-- At 20 the cursor stays in the first entry, and the next sample is at 30 instead of 40.
theorem seek_at_end : seekTrack sampleTrack 20 = (true,(seekTrack sampleTrack 20).2) ∧
    (seekTrack sampleTrack 20).2.pos = 2 ∧ (seekTrack sampleTrack 20).2.timePos = 0 ∧ (iterate sampleTrack 2).2.timePos = 1 ∧
    (next sampleTrack (seekTrack sampleTrack 20).2).2.timestamp = 30 ∧ (iterate sampleTrack 3).2.timestamp = 40 := by
  decide +kernel

-- seek_delay leaves the empty entry out, next_delay does not.
theorem seek_over_empty : seekTrack longTrack 0x80000000 = (true,(seekTrack longTrack 0x80000000).2) ∧
    (seekTrack longTrack 0x80000000).2.pos = 1 ∧ (seekTrack longTrack 0x80000000).2.delay = 20 ∧ (iterate longTrack 1).2.delay = 99 := by
  decide +kernel

theorem seek_differs : (Consistent sampleTrack sampleTables 4 ∧ seekTrack sampleTrack 20 = (true,(seekTrack sampleTrack 20).2) ∧
      ¬ Same (seekTrack sampleTrack 20).2 (iterate sampleTrack (seekTrack sampleTrack 20).2.pos).2) ∧
    Consistent longTrack longTables 3 ∧ seekTrack longTrack 0x80000000 = (true,(seekTrack longTrack 0x80000000).2) ∧
      ¬ Same (seekTrack longTrack 0x80000000).2 (iterate longTrack (seekTrack longTrack 0x80000000).2.pos).2 := by
  obtain ⟨ended,pos,stays,goes,_⟩ := seek_at_end
  obtain ⟨skipped,pos',skips,enters⟩ := seek_over_empty
  refine ⟨⟨sample_consistent,ended,?_⟩,long_consistent,skipped,?_⟩
  · rintro ⟨_,_,_,moved⟩
    rw [← pos,moved] at goes
    rw [stays] at goes
    cases goes
  · rintro ⟨_,_,_,moved⟩
    rw [← pos',moved] at enters
    rw [skips] at enters
    cases enters

end NgxRtmp.Mp4
