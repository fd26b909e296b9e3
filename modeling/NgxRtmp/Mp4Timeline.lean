import NgxRtmp.Mp4Playback

namespace NgxRtmp.Mp4Playback
open ChunkWriter PlayQueue Mp4 RunLength List
open Flv (readFile)
open FlvPlayback (csidOf put)

def frameHeaderSize (info : Info) : Kind → Nat
  | .audio => if info.header.isSome then 2 else 1
  | .video => if info.header.isSome then 5 else 1

def ownTimestamp (t : Mp4.Track) (b : Tables) (k : Nat) : UInt32 := UInt32.ofNat (b.dts k*1000/t.timeScale)

-- Every sample has a time of 32 bits and goes into the buffer behind its frame header, and the file has it.
structure Playable (info : Info) (track : Kind) (b : Tables) (n : Nat) (file : List UInt8) : Prop where
  time : ∀ k < n, b.dts k < 2^32
  fits : ∀ k < n, ∀ size, b.sampleSizes[k]? = some size → size+frameHeaderSize info track ≤ bufferSize
  inside : ∀ k < n, ∀ size offset, b.sampleSizes[k]? = some size → b.Stored k offset → offset+size ≤ file.length
  length : file.length < 2^63

def Carries (info : Info) (track : Kind) (b : Tables) (file : List UInt8) (k : Nat) (m : Message) : Prop :=
  m.h.type = track.type ∧ ∃ front size offset, front.length = frameHeaderSize info track ∧ b.sampleSizes[k]? = some size ∧
    b.Stored k offset ∧ m.payload = front ++ readFile file size offset

-- The time a track is sought at: audio goes where video has landed.
def soughtAt (movie : Movie) (timestamp : UInt32) : Kind → UInt32
  | .video => timestamp
  | .audio =>
    if .video ∈ movie.order then
      toRtmpTimestamp (movie.info .video).table (seekTrack (movie.info .video).table timestamp).2.timestamp
    else timestamp

theorem frameHeader_length (info : Info) (cr : Cursor) (track : Kind) :
    (frameHeader info cr track).length = frameHeaderSize info track := by
  cases track with
  | audio => cases header : info.header <;> simp [frameHeader,frameHeaderSize,header]
  | video => cases header : info.header <;> simp [frameHeader,frameHeaderSize,header]

theorem toRtmpTimestamp_own (small : b.dts k < 2^32) : toRtmpTimestamp t (UInt32.ofNat (b.dts k)) = ownTimestamp t b k := by
  unfold toRtmpTimestamp ownTimestamp
  rw [UInt32.toNat_ofNat_of_lt' small]

theorem placed_stored (place : Placed t b k cr) : ∃ offset, b.Stored k offset ∧ cr.offset = UInt64.ofNat offset := by
  obtain ⟨base,chunk,offset⟩ := place.offset
  exact ⟨_,⟨_,_,base,place.chunk.2.1,chunk,rfl⟩,offset⟩

section
variable {info : Info} {track : Kind} {b : Tables} {n : Nat} {file : List UInt8} (playable : Playable info track b n file)
include playable

theorem readFrame_sample (place : Placed t b k cr) (inside : k < n) : ∃ offset, b.Stored k offset ∧
    readFrame file cr = some (readFile file cr.size offset) := by
  obtain ⟨offset,stored,same⟩ := placed_stored place
  have within := playable.inside k inside cr.size offset place.size.1 stored
  have length := playable.length
  have exact_offset : cr.offset.toNat = offset := by
    rw [same]
    apply UInt64.toNat_ofNat_of_lt'
    change offset < 2^64
    omega
  refine ⟨offset,stored,?_⟩
  unfold readFrame
  dsimp only
  rw [exact_offset,if_pos]
  refine ⟨by omega,?_⟩
  simp only [readFile,length_take,length_drop]
  omega

theorem frame_fits (place : Placed t b k cr) (inside : k < n) : cr.size+(frameHeader info cr track).length ≤ bufferSize := by
  rw [frameHeader_length]
  exact playable.fits k inside cr.size place.size.1

end

theorem heard_append :
    heard track clocks (log ++ more) = heard track clocks log ++ heard track (hearAll clocks (log.map Entry.message)) more := by
  induction log generalizing clocks with
  | nil => rfl
  | cons e log ih =>
    simp only [cons_append,heard,ih,map_cons,hearAll,foldl_cons]
    split
    · rfl
    · split
      · rfl
      · rfl

def Quiet (track : Kind) (e : Entry) : Prop := e.message.h.csid ≠ csidOf track ∧ ∀ k, e.sample ≠ some (track,k)

theorem heard_quiet (clocks : Clocks) (quiet : ∀ e ∈ more, Quiet track e) :
    heard track clocks more = [] ∧ hearAll clocks (more.map Entry.message) (csidOf track) = clocks (csidOf track) := by
  induction more generalizing clocks with
  | nil => exact ⟨rfl,rfl⟩
  | cons e more ih =>
    obtain ⟨other,unnamed⟩ := quiet e mem_cons_self
    obtain ⟨silent,clock⟩ := ih (hear clocks e.message) fun e' member => quiet e' (mem_cons_of_mem _ member)
    have kept : hearAll clocks ((e::more).map Entry.message) (csidOf track) = clocks (csidOf track) :=
      clock.trans (hear_other clocks other)
    refine ⟨?_,kept⟩
    rw [heard]
    split
    · exact silent
    · rename_i kind k sample
      rw [if_neg]
      · exact silent
      · intro same
        exact unnamed k (by rw [sample,same])

theorem csid_other (different : other ≠ track) : csidOf other ≠ csidOf track := by
  cases track <;> cases other
  all_goals first | exact absurd rfl different | decide

-- What holds of a track since a seek has landed it on sample `first`.
structure Follows (info : Info) (track : Kind) (b : Tables) (n : Nat) (file : List UInt8) (clocks : Clocks) (first : Nat)
    (a : State × List Entry) : Prop where
  queued : ∃ m, heard track clocks a.2 = (range' first m).map (fun k => (k,ownTimestamp info.table b k)) ∧
    ((a.1.cursor track).valid = true → first+m < n ∧ Placed info.table b (first+m) (a.1.cursor track))
  last : (a.1.cursor track).valid = true → (a.1.cursor track).notFirst = true →
    (hearAll clocks (a.2.map Entry.message) (csidOf track)).timestamp = toRtmpTimestamp info.table (a.1.cursor track).lastTimestamp
  announced : (a.1.cursor track).valid = true → (a.1.cursor track).notFirst = true →
    a.1.headerSent track = true ∨ info.header = none
  carried : ∀ e ∈ a.2, ∀ k, e.sample = some (track,k) → Carries info track b file k e.message

theorem Follows.other (follows : Follows info track b n file clocks first (st,log)) (cursor : st'.cursor track = st.cursor track)
    (sent : st.headerSent track = true → st'.headerSent track = true) (quiet : ∀ e ∈ more, Quiet track e) :
    Follows info track b n file clocks first (st',log ++ more) := by
  obtain ⟨⟨m,queued,place⟩,last,announced,carried⟩ := follows
  obtain ⟨silent,clock⟩ := heard_quiet (hearAll clocks (log.map Entry.message)) quiet
  have sum : hearAll clocks ((log ++ more).map Entry.message) = hearAll (hearAll clocks (log.map Entry.message)) (more.map Entry.message) := by
    simp only [hearAll,map_append,foldl_append]
  refine ⟨⟨m,?_,?_⟩,?_,?_,?_⟩
  · rw [heard_append,silent,append_nil]
    exact queued
  · rw [cursor]
    exact place
  · dsimp only
    rw [cursor,sum,clock]
    exact last
  · dsimp only
    rw [cursor]
    exact fun valid later => (announced valid later).imp_left sent
  · exact forall_mem_append.mpr ⟨carried,fun e new k sample => absurd sample ((quiet e new).2 k)⟩

theorem Follows.still (follows : Follows info track b n file clocks first (st,log)) (cursor : st'.cursor track = st.cursor track)
    (sent : st'.headerSent track = st.headerSent track) : Follows info track b n file clocks first (st',log) := by
  have kept := follows.other cursor (fun before => sent.trans before) (fun e (member : e ∈ ([] : List Entry)) => nomatch member)
  rw [append_nil] at kept
  exact kept

theorem put_other (different : other ≠ track) : put f track x other = f other :=
  if_neg different

theorem amf_other : csidAmf ≠ csidOf track := by
  cases track <;> decide

theorem csid_named : csidOf track ≠ 0 := by
  cases track <;> decide

theorem quiet_other (different : kind ≠ track) (stream : e.message.h.csid = csidOf kind)
    (sample : ∀ other k, e.sample = some (other,k) → other = kind) : Quiet track e := by
  refine ⟨?_,fun k same => different (sample track k same).symm⟩
  rw [stream]
  exact csid_other different

-- The codec header comes before every frame, so no frame after it counts from an earlier one.
theorem Follows.header (follows : Follows info track b n file clocks first (st,log)) (codec : info.header = some bytes)
    (valid : (st.cursor track).valid = true) (unsent : st.headerSent track = false) :
    Follows info track b n file clocks first ({st with headerSent:=put st.headerSent track true},
      log ++ [headerEntry info track timestamp bytes]) := by
  obtain ⟨⟨m,queued,place⟩,_,announced,carried⟩ := follows
  have fresh : (st.cursor track).notFirst ≠ true := by
    intro later
    cases announced valid later with
    | inl sent => rw [unsent] at sent; cases sent
    | inr none => rw [codec] at none; cases none
  refine ⟨⟨m,?_,place⟩,fun _ later => absurd later fresh,fun _ later => absurd later fresh,?_⟩
  · rw [heard_append]
    simpa [heard,headerEntry] using queued
  · exact forall_mem_append.mpr ⟨carried,forall_mem_singleton.mpr fun _ sample => nomatch sample⟩

theorem frame_heard (timestamp : UInt32) (body : List UInt8)
    (last : cr.notFirst = true → (clocks (csidOf track)).timestamp = toRtmpTimestamp info.table cr.lastTimestamp) :
    (hear clocks (frameEntry info cr track timestamp body).message (csidOf track)).timestamp = timestamp := by
  cases later : cr.notFirst with
  | false =>
    refine hear_absolute (m:=(frameEntry info cr track timestamp body).message) ?_
    simp [frameEntry,later]
  | true =>
    refine hear_relative (m:=(frameEntry info cr track timestamp body).message) ?_ ?_ rfl (last later)
    · simp [frameEntry,later]
    · exact csid_named

theorem mp4Seek_cursor (now start : UInt32) (st : State) (member : track ∈ movie.order) :
    (mp4Seek movie now start st).cursor track =
      {(seekTrack (movie.info track).table (soughtAt movie start track)).2 with notFirst:=false} := by
  cases track with
  | video =>
    simp only [mp4Seek,mp4Reset,seekAudio,seekVideo,if_pos member,soughtAt]
    split
    · simp [put]
    · simp [put]
  | audio =>
    simp only [mp4Seek,mp4Reset,seekAudio,seekVideo,if_pos member,soughtAt]
    split
    · simp [put,State.timestamp]
    · simp [put]

section
variable {movie : Movie} {track : Kind} {b : Tables} {n : Nat} {file : List UInt8}
variable (ok : Consistent (movie.info track).table b n) (playable : Playable (movie.info track) track b n file)
include ok playable

theorem Follows.frame (follows : Follows (movie.info track) track b n file clocks first (st,log))
    (valid : (st.cursor track).valid = true) (announced : st.headerSent track = true ∨ (movie.info track).header = none)
    (body : readFrame file (st.cursor track) = some bytes) :
    Follows (movie.info track) track b n file clocks first (st.advance movie track,
      log ++ [frameEntry (movie.info track) (st.cursor track) track (st.timestamp movie track) bytes]) := by
  obtain ⟨⟨m,queued,placed⟩,last,_,carried⟩ := follows
  obtain ⟨inside,place⟩ := placed valid
  have pos : (st.cursor track).pos = first+m := place.time.1
  have own : st.timestamp movie track = ownTimestamp (movie.info track).table b (first+m) := by
    unfold State.timestamp
    rw [place.time.2.2]
    exact toRtmpTimestamp_own (playable.time _ inside)
  have clock := frame_heard (st.timestamp movie track) bytes (last valid)
  have moved : (st.advance movie track).cursor track = (next (movie.info track).table (st.cursor track)).2 := by
    simp [State.advance,put]
  -- the cursor goes on to the next sample, or the track is at its end
  have on : ((st.advance movie track).cursor track).valid = true → first+m+1 < n := by
    rw [moved]
    intro still
    refine Nat.not_le.mp fun least => ?_
    have ended := next_ends ok place (by omega)
    rw [show (next (movie.info track).table (st.cursor track)).1 = true from still] at ended
    cases ended
  refine ⟨⟨m+1,?_,?_⟩,?_,?_,?_⟩
  · rw [heard_append,queued,range'_concat,map_append]
    congr 1
    change (if track = track then [((st.cursor track).pos,_)] else []) = [(first+1*m,_)]
    rw [if_pos rfl,pos,one_mul]
    exact congrArg (fun time => [(first+m,time)]) (clock.trans own)
  · intro still
    rw [moved]
    exact ⟨on still,(next_places ok place (on still)).2.1⟩
  · intro still _
    have before := (next_places ok place (on still)).2.2.1
    dsimp only
    rw [moved,before]
    simp only [hearAll,map_append,foldl_append]
    exact clock
  · exact fun _ _ => announced
  · refine forall_mem_append.mpr ⟨carried,forall_mem_singleton.mpr fun k sample => ?_⟩
    cases sample
    obtain ⟨offset,stored,whole⟩ := readFrame_sample playable place inside
    rw [body] at whole
    cases whole
    rw [pos]
    refine ⟨rfl,_,_,offset,frameHeader_length _ (st.cursor track) track,place.size.1,stored,?_⟩
    simp [frameEntry,Message.payload]

theorem Follows.act (act : Act movie file a a') (follows : Follows (movie.info track) track b n file clocks first a) :
    Follows (movie.info track) track b n file clocks first a' := by
  cases act with
  | control start epoch => exact follows.still rfl rfl
  | metadata =>
    refine follows.other rfl id fun e member => ?_
    rw [mem_singleton.mp member]
    exact ⟨amf_other,fun _ same => nomatch same⟩
  | header kind due codec unsent =>
    by_cases same : kind = track
    · subst same
      exact follows.header codec due.2 unsent
    · refine follows.other rfl (fun sent => ?_) fun e member => ?_
      · exact (put_other (Ne.symm same)).trans sent
      · rw [mem_singleton.mp member]
        exact quiet_other same rfl fun _ _ none => nomatch none
  | frame kind due announced body =>
    by_cases same : kind = track
    · subst same
      exact follows.frame ok playable due.2 announced body
    · refine follows.other (put_other (Ne.symm same)) id fun e member => ?_
      rw [mem_singleton.mp member]
      refine quiet_other same rfl fun other k named => ?_
      cases named
      rfl
  | skipped kind due announced reason =>
    by_cases same : kind = track
    · subst same
      obtain ⟨⟨m,_,placed⟩,_⟩ := follows
      obtain ⟨inside,place⟩ := placed due.2
      obtain ⟨_,_,whole⟩ := readFrame_sample playable place inside
      cases reason with
      | inl big => exact absurd (frame_fits playable place inside) (Nat.not_le.mpr big)
      | inr unread =>
        rw [whole] at unread
        cases unread
    · exact follows.still (put_other (Ne.symm same)) rfl

end

theorem Follows.begins (ok : Consistent (movie.info track).table b n)
    (lands : stopsInside (fromRtmpTimestamp (movie.info track).table (soughtAt movie start track)) 0 b.times = true)
    (member : track ∈ movie.order) (now : UInt32) (st : State) (clocks : Clocks) :
    Follows (movie.info track) track b n file clocks ((mp4Seek movie now start st).cursor track).pos
      (mp4Seek movie now start st,[]) := by
  have cursor := mp4Seek_cursor now start st member
  have first : ((mp4Seek movie now start st).cursor track).notFirst = false := by rw [cursor]
  refine ⟨⟨0,rfl,fun valid => ?_⟩,fun _ later => ?_,fun _ later => ?_,fun _ none => nomatch none⟩
  · dsimp only at valid ⊢
    rw [cursor] at valid ⊢
    have sought : seekTrack (movie.info track).table (soughtAt movie start track) =
        (true,(seekTrack (movie.info track).table (soughtAt movie start track)).2) := by
      rw [← seekTrack_valid.symm.trans valid]
    obtain ⟨inside,_,placed,_⟩ := seekTrack_stops ok sought
    have place := placed lands
    exact ⟨inside,place.time,place.key,place.chunk,place.size,place.offset⟩
  · rw [first] at later
    cases later
  · rw [first] at later
    cases later

theorem stopsInside_zero (ok : Consistent t b n) : stopsInside 0 0 b.times = true := by
  cases table : b.times with
  | nil => rfl
  | cons te rest =>
    have positive := ok.timePositive te (by rw [table]; exact mem_cons_self)
    unfold stopsInside
    dsimp only
    rw [if_pos UInt32.zero_le]
    simpa using Nat.mul_pos positive.1 positive.2

theorem seekTrack_start (ok : Consistent t b n) : (seekTrack t 0).2.timestamp = 0 := by
  obtain ⟨landed,sought,at_zero⟩ := seekTrack_zero ok ok.some_samples
  rw [sought]
  exact at_zero.time.2.2

theorem soughtAt_start (ok : .video ∈ movie.order → Consistent (movie.info .video).table b n) : soughtAt movie 0 track = 0 := by
  cases track with
  | video => rfl
  | audio =>
    by_cases member : .video ∈ movie.order
    · simp [soughtAt,member,seekTrack_start (ok member),toRtmpTimestamp]
    · simp [soughtAt,member]

-- A reader recovers the samples from the one landed on, each at its own time.
theorem playback_timeline {tables : Kind → Tables} {count : Kind → Nat}
    (consistent : ∀ track ∈ movie.order, Consistent (movie.info track).table (tables track) (count track) ∧ 0 < (movie.info track).table.timeScale)
    (playable : ∀ track ∈ movie.order, Playable (movie.info track) track (tables track) (count track) file)
    (lands : start = 0 ∨ ∀ track ∈ movie.order,
      stopsInside (fromRtmpTimestamp (movie.info track).table (soughtAt movie start track)) 0 (tables track).times = true)
    (now : UInt32) (st : State) (clocks : Clocks) (events : List Event) (track : Kind) (member : track ∈ movie.order) :
    (∃ m, heard track clocks (run movie file (mp4Seek movie now start st) events).2 =
      (range' ((mp4Seek movie now start st).cursor track).pos m).map
        fun k => (k,ownTimestamp (movie.info track).table (tables track) k)) ∧
    ∀ e ∈ (run movie file (mp4Seek movie now start st) events).2, ∀ k, e.sample = some (track,k) →
      Carries (movie.info track) track (tables track) file k e.message := by
  have ok := (consistent track member).1
  have landing : stopsInside (fromRtmpTimestamp (movie.info track).table (soughtAt movie start track)) 0 (tables track).times = true := by
    cases lands with
    | inr lands => exact lands track member
    | inl zero =>
      subst zero
      rw [soughtAt_start (fun video => (consistent .video video).1)]
      simpa [fromRtmpTimestamp] using stopsInside_zero ok
  have follows := run_keeps (fun a b act => Follows.act ok (playable track member) act) _
    (Follows.begins ok landing member now st clocks) events
  obtain ⟨m,queued,_⟩ := follows.queued
  exact ⟨⟨m,queued⟩,follows.carried⟩

def sampleMovie : Movie :=
  ⟨[.video,.audio],fun | .video => ⟨sampleTrack,7,some [1,2]⟩ | .audio => ⟨sampleTrack,0x2e,none⟩,[2]⟩

def sampleFile : List UInt8 := replicate 300 5

def unplayed : State := ⟨fun _ => {},fun _ => false,false,0,0⟩

-- The queue takes three messages at a time; the playback is stopped and started again.
def sampleEvents : List Event :=
  let env : Env := ⟨0,0,fun i => i < 3⟩
  [.start 0,.send env,.send env,.stop 10,.start 20,.send env,.send env,.send env]

theorem sample_playable : Playable info track sampleTables 4 sampleFile := by
  have sizes : ∀ k < 4, sampleTables.sampleSizes[k]?.getD 0 ≤ 8 := by decide
  have sums : ∀ k < 4, ∀ s < 4, ((sampleTables.sampleSizes.drop (k-s)).take s).sum ≤ 26 := by decide
  have size_le : ∀ k < 4, ∀ size, sampleTables.sampleSizes[k]? = some size → size ≤ 8 := by
    intro k inside size entry
    have bound := sizes k inside
    rw [entry] at bound
    exact bound
  refine ⟨by decide,?_,?_,?_⟩
  · intro k inside size entry
    have small := size_le k inside size entry
    have header : frameHeaderSize info track ≤ 5 := by
      unfold frameHeaderSize
      cases info.header.isSome <;> cases track <;> decide
    unfold bufferSize
    omega
  · intro k inside size offset entry stored
    obtain ⟨c,s,base,sits,chunk,rfl⟩ := stored
    have small := size_le k inside size entry
    have before := sums k inside s (lt_of_le_of_lt (sits_place sits).1 inside)
    have start : base ≤ 200 := by
      match c with
      | 0 => cases chunk; decide
      | 1 => cases chunk; decide
      | c+2 => cases chunk
    rw [sampleFile,length_replicate]
    omega
  · rw [sampleFile,length_replicate]
    decide

theorem playback_timeline_sample :
    heard .audio (fun _ => ⟨0,0⟩) (run sampleMovie sampleFile (mp4Seek sampleMovie 0 0 unplayed) sampleEvents).2 =
      [(0,0),(1,10),(2,20),(3,40)] ∧
    ∃ m, heard .audio (fun _ => ⟨0,0⟩) (run sampleMovie sampleFile (mp4Seek sampleMovie 0 0 unplayed) sampleEvents).2 =
      (range' ((mp4Seek sampleMovie 0 0 unplayed).cursor .audio).pos m).map
        fun k => (k,ownTimestamp sampleTrack sampleTables k) := by
  refine ⟨by decide +kernel,?_⟩
  have consistent : ∀ track ∈ sampleMovie.order, Consistent (sampleMovie.info track).table sampleTables 4 ∧
      0 < (sampleMovie.info track).table.timeScale := by
    intro track _
    cases track with
    | audio => exact ⟨sample_consistent,by decide⟩
    | video => exact ⟨sample_consistent,by decide⟩
  exact (playback_timeline consistent (fun track _ => sample_playable) (.inl rfl) 0 unplayed (fun _ => ⟨0,0⟩) sampleEvents
    .audio (by decide)).1

-- Three samples of 20 ms; the second fills the buffer, so that its frame header has no room.
def largeTables : Tables := {times:=[⟨3,20⟩],chunks:=[⟨1,1⟩],sizes:=⟨0,3,[1,1048576,1]⟩,offsets:=[0,2,1]}

def largeTrack : Mp4.Track :=
  {timeScale:=1000,times:=some largeTables.times,delays:=none,keys:=none,chunks:=some largeTables.chunks
   sizes:=some largeTables.sizes,sizes2:=none,offsets:=some [0,2,1],offsets64:=none}

def largeMovie : Movie := ⟨[.audio],fun _ => ⟨largeTrack,0x2e,none⟩,[2]⟩

def largeFile : List UInt8 := [7,8] ++ replicate 1048576 9

-- The frame is left out, and the one after it counts from it all the same: 20 instead of 40.
theorem skipped_frame_shifts_timeline : Consistent largeTrack largeTables 3 ∧ largeFile.length = 1048578 ∧
    heard .audio (fun _ => ⟨0,0⟩) (run largeMovie largeFile (mp4Seek largeMovie 0 0 unplayed)
      [.start 0,.send ⟨0,0,fun _ => true⟩,.send ⟨0,0,fun _ => true⟩]).2 = [(0,0),(2,20)] ∧
    ownTimestamp largeTrack largeTables 2 = 40 := by
  refine ⟨?_,by rw [largeFile,length_append,length_replicate]; rfl,by decide +kernel,by decide⟩
  refine ⟨rfl,rfl,rfl,.inl ⟨_,rfl,rfl⟩,?_,rfl,rfl,?_,?_,?_,rfl,rfl,fun _ => rfl,?_,?_⟩
  · decide
  · decide
  · decide
  · decide
  · intro keys table
    cases table
  · intro delays table
    cases table

end NgxRtmp.Mp4Playback
