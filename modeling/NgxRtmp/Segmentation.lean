import NgxRtmp.Resumption

namespace NgxRtmp.Flow
open ChunkWriter ChunkHeader Recv Decode List

-- No end of file, and no acknowledgement fails.
def plain : Read → Bool
  | .data _ acked => acked
  | .again => true
  | .closed => false

def bytesOn : List Read → List UInt8
  | [] => []
  | .data bytes _::rest => bytes ++ bytesOn rest
  | _::rest => bytesOn rest

inductive Taken (socket : List Read) : Arrival × List Read → Prop
  | again (bytes : bytesOn rest = bytesOn socket) (plainly : rest.all plain = true)
      (shorter : rest.length < socket.length ∨ socket = [] ∧ rest = []) : Taken socket (.again,rest)
  | bytes (some : piece ≠ []) (bytes : bytesOn socket = piece ++ bytesOn rest) (plainly : rest.all plain = true)
      (shorter : rest.length ≤ socket.length) : Taken socket (.bytes piece true,rest)

theorem takeRead_plain (plainly : socket.all plain = true) (room : 0 < n) : Taken socket (takeRead n socket) := by
  have positive : n ≠ 0 := Nat.ne_of_gt room
  induction socket with
  | nil =>
    unfold takeRead
    rw [if_neg positive]
    exact .again rfl rfl (.inr ⟨rfl,rfl⟩)
  | cons read socket ih =>
    simp only [all_cons,Bool.and_eq_true] at plainly
    cases read with
    | again =>
      unfold takeRead
      rw [if_neg positive]
      exact .again rfl plainly.2 (.inl (Nat.lt_succ_self _))
    | closed => cases plainly.1
    | data bytes acked =>
      obtain rfl : acked = true := plainly.1
      cases bytes with
      | nil =>
        have rest := ih plainly.2
        change Taken _ (takeRead n socket)
        generalize takeRead n socket = result at rest ⊢
        cases rest with
        | again same plainly shorter =>
          refine .again same plainly (.inl ?_)
          rcases shorter with less | ⟨rfl,rfl⟩
          · exact Nat.lt_succ_of_lt less
          · exact Nat.lt_succ_self _
        | bytes some same plainly shorter => exact .bytes some same plainly (Nat.le_succ_of_le shorter)
      | cons b bytes =>
        unfold takeRead
        rw [if_neg positive]
        by_cases whole : bytes.length < n
        · rw [if_pos whole]
          exact .bytes (cons_ne_nil _ _) rfl plainly.2 (Nat.le_succ _)
        · rw [if_neg whole]
          refine .bytes ?_ ?_ ?_ le_rfl
          · intro none
            have length := congrArg List.length none
            simp only [length_take,length_cons,length_nil] at length
            omega
          · change (b::bytes) ++ bytesOn socket = _ ++ ((b::bytes).drop n ++ bytesOn socket)
            rw [←append_assoc,take_append_drop]
          · simp only [all_cons,Bool.and_eq_true]
            exact ⟨rfl,plainly.2⟩

def slack (kept : Bool) (socket : List Read) : Nat := if kept then 3 else if socket.isEmpty then 2 else 0

-- What a connection still has to do. It goes down with every step.
def work (c : Config) : Nat :=
  5*(bytesOn c.socket).length+2*c.socket.length+c.f.bytes.length+
    match c.loop with
    | none => 1
    | some (_,kept) => slack kept c.socket

def final (c : Config) : Bool := c.loop.isNone && (c.f.core.destroyed || c.socket.isEmpty)

-- The decoder has read some chunks; the bytes at hand and on the socket are the rest.
inductive Follows (conf : SrvConf) (chunkSize : Nat) (events : Events) (total : List UInt8) : Config → Prop
  | dead (reads : Reading.Reads (Decoder.next conf chunkSize events) .initial total e rest) (ended : e.dead = true)
      (destroyed : f.core.destroyed = true) (trace : f.core.trace = e.trace) :
      Follows conf chunkSize events total ⟨f,none,socket⟩
  | idle (reads : Reading.Reads (Decoder.next conf chunkSize events) .initial total d (f.bytes ++ bytesOn socket))
      (agrees : Agrees conf chunkSize d f) (phase : Phase conf d f) (waits : d.next conf chunkSize events f.bytes = none)
      (plainly : socket.all plain = true) : Follows conf chunkSize events total ⟨f,none,socket⟩
  | waiting (reads : Reading.Reads (Decoder.next conf chunkSize events) .initial total d (f.bytes ++ bytesOn socket))
      (agrees : Agrees conf chunkSize d f) (phase : Phase conf d f) (waits : d.next conf chunkSize events f.bytes = none)
      (plainly : socket.all plain = true) : Follows conf chunkSize events total ⟨f,some (conf,false),socket⟩
  | leftover (reads : Reading.Reads (Decoder.next conf chunkSize events) .initial total d (f.bytes ++ bytesOn socket))
      (agrees : Agrees conf chunkSize d f) (fresh : Fresh d f) (plainly : socket.all plain = true) :
      Follows conf chunkSize events total ⟨f,some (conf,true),socket⟩

def Turn.config (conf : SrvConf) : Turn → Config
  | .next f kept socket => ⟨f,some (conf,kept),socket⟩
  | .stop f socket => ⟨f,none,socket⟩

theorem step_busy : step events ⟨f,some (conf,kept),socket⟩ = (turn events conf f kept socket).config conf := by
  unfold step
  dsimp only
  cases turn events conf f kept socket <;> rfl

section Follow
variable {conf : SrvConf} {chunkSize : Nat} {events : Events} {total : List UInt8} {d : Decoder} {f : State} {socket : List Read}

theorem parse_follows (quiet : Quiet events)
    (reads : Reading.Reads (Decoder.next conf chunkSize events) .initial total d (f.bytes ++ bytesOn socket))
    (agrees : Agrees conf chunkSize d f) (fresh : Fresh d f) (plainly : socket.all plain = true) :
    Follows conf chunkSize events total (((parse conf f socket).finish events).config conf) ∧
      (final (((parse conf f socket).finish events).config conf) = true ∨
        work (((parse conf f socket).finish events).config conf) ≤
          5*(bytesOn socket).length+2*socket.length+f.bytes.length+2) := by
  cases read : d.next conf chunkSize events f.bytes with
  | none =>
    obtain ⟨g,parsed,phase,after,bytes⟩ := parse_waits agrees fresh read
    rw [parsed]
    refine ⟨.waiting (bytes ▸ reads) after phase (bytes ▸ read) plainly,.inr ?_⟩
    change 5*(bytesOn socket).length+2*socket.length+g.bytes.length+slack false socket ≤ _
    rw [bytes]
    unfold slack
    simp only [Bool.false_eq_true,if_false]
    split <;> omega
  | some result =>
    obtain ⟨e,rest⟩ := result
    have shorter := next_shorter read
    have further := reads.snoc (next_append read)
    have turned := parse_reads quiet agrees fresh read socket
    generalize (parse conf f socket).finish events = t at turned ⊢
    cases turned with
    | dead ended destroyed trace =>
      refine ⟨.dead further ended destroyed trace,.inl ?_⟩
      simp [final,Turn.config,destroyed]
    | alive after begun bytes =>
      rename_i g
      have left : g.bytes.length < f.bytes.length := by rwa [bytes]
      refine ⟨?_,.inr ?_⟩
      · by_cases none : rest = []
        · have waits : e.next conf chunkSize events g.bytes = .none := by
            rw [bytes,none]
            unfold Decoder.next
            split <;> rfl
          simp only [none,ne_eq,not_true_eq_false,decide_false]
          exact .waiting (bytes.symm ▸ further) after begun.phase waits plainly
        · simp only [ne_eq,none,not_false_eq_true,decide_true]
          exact .leftover (bytes.symm ▸ further) after begun plainly
      · change 5*(bytesOn socket).length+2*socket.length+g.bytes.length+slack _ socket ≤ _
        have small : ∀ kept, slack kept socket ≤ 3 := by
          intro kept
          unfold slack
          split
          · omega
          · split <;> omega
        have bound := small (rest ≠ [])
        omega

theorem Agrees.rewound (agrees : Agrees conf chunkSize d f) : Agrees conf chunkSize d (rewound d f) ∧ Fresh d (Flow.rewound d f) :=
  ⟨⟨agrees.chunks,agrees.trace,agrees.alive,agrees.kept,agrees.steady,agrees.size,agrees.server⟩,rfl,rfl,rfl⟩

theorem count_acked (c : Core) (n : Nat) : (c.count n true).2 = true := by
  unfold Core.count
  dsimp only
  split <;> split <;> rfl

theorem waiting_follows (quiet : Quiet events)
    (reads : Reading.Reads (Decoder.next conf chunkSize events) .initial total d (f.bytes ++ bytesOn socket))
    (agrees : Agrees conf chunkSize d f) (phase : Phase conf d f) (waits : d.next conf chunkSize events f.bytes = none)
    (plainly : socket.all plain = true) :
    Follows conf chunkSize events total (step events ⟨f,some (conf,false),socket⟩) ∧
      (final (step events ⟨f,some (conf,false),socket⟩) = true ∨
        work (step events ⟨f,some (conf,false),socket⟩) < work ⟨f,some (conf,false),socket⟩) := by
  have room : 0 < capacity f.core.chunkSize-f.bytes.length := by
    have short := next_room agrees.alive waits
    rw [agrees.size]
    unfold capacity
    omega
  have taken := takeRead_plain plainly room
  rw [step_busy]
  unfold turn advance fill
  simp only [Bool.false_eq_true,if_false]
  generalize takeRead (capacity f.core.chunkSize-f.bytes.length) socket = result at taken ⊢
  cases taken with
  | again same plainly shorter =>
    rename_i rest
    refine ⟨.idle (same ▸ reads) agrees phase waits plainly,.inr ?_⟩
    change 5*(bytesOn rest).length+2*rest.length+f.bytes.length+1 < 5*(bytesOn socket).length+2*socket.length+f.bytes.length+slack false socket
    rw [same]
    rcases shorter with less | ⟨rfl,rfl⟩
    · omega
    · exact Nat.lt_succ_self _
  | bytes some same plainly shorter =>
    rename_i bytes rest
    obtain ⟨inBytes,inLastAck,counted⟩ := count_frame f.core
    have sent := count_acked f.core bytes.length
    simp only
    rcases pair : f.core.count bytes.length true with ⟨core,flag⟩
    rw [pair] at counted sent
    obtain rfl : flag = true := sent
    subst counted
    have after : Agrees conf chunkSize d {f with core:={f.core with inBytes,inLastAck},bytes:=f.bytes ++ bytes} :=
      ⟨agrees.chunks,agrees.trace,agrees.alive,agrees.kept,agrees.steady,agrees.size,agrees.server⟩
    have again := parse_rewound phase (g:={f with core:={f.core with inBytes,inLastAck},bytes:=f.bytes ++ bytes}) rfl rfl rfl rfl rest
    obtain ⟨back,fresh⟩ := after.rewound
    have total_same : f.bytes ++ bytesOn socket = (rewound d {f with core:={f.core with inBytes,inLastAck},bytes:=f.bytes ++ bytes}).bytes ++ bytesOn rest := by
      rw [same,←append_assoc]
      rfl
    obtain ⟨follows,progress⟩ := parse_follows quiet (total_same ▸ reads) back fresh plainly
    simp only
    rw [again]
    refine ⟨follows,progress.imp id fun bound => ?_⟩
    have positive : 0 < bytes.length := length_pos_of_ne_nil some
    have lengths : (bytesOn socket).length = bytes.length+(bytesOn rest).length := by rw [same,length_append]
    have size : (rewound d {f with core:={f.core with inBytes,inLastAck},bytes:=f.bytes ++ bytes}).bytes.length =
        f.bytes.length+bytes.length := length_append
    rw [size] at bound
    refine lt_of_le_of_lt bound ?_
    change _ < 5*(bytesOn socket).length+2*socket.length+f.bytes.length+slack false socket
    omega

theorem step_follows (quiet : Quiet events) (follows : Follows conf chunkSize events total c) :
    Follows conf chunkSize events total (step events c) ∧
      (final c = true ∨ final (step events c) = true ∨ work (step events c) < work c) := by
  cases follows with
  | dead reads ended destroyed trace =>
    have same : ∀ f socket, f.core.destroyed = true → step events ⟨f,none,socket⟩ = ⟨f,none,socket⟩ := by
      intro f socket destroyed
      unfold step
      simp only [destroyed,Bool.true_or,if_true]
    rw [same _ _ destroyed]
    refine ⟨.dead reads ended destroyed trace,.inl ?_⟩
    simp [final,destroyed]
  | idle reads agrees phase waits plainly =>
    rename_i d socket f
    cases socket with
    | nil =>
      refine ⟨?_,.inl (by simp [final])⟩
      unfold step
      simp only [isEmpty_nil,Bool.or_true,if_true]
      exact .idle reads agrees phase waits plainly
    | cons read socket =>
      have busy : step events ⟨f,none,read::socket⟩ = ⟨f,some (conf,false),read::socket⟩ := by
        unfold step
        simp only [agrees.kept,isEmpty_cons,Bool.or_false,Bool.false_eq_true,if_false,agrees.server]
      rw [busy]
      refine ⟨.waiting reads agrees phase waits plainly,.inr (.inr ?_)⟩
      exact Nat.lt_succ_self _
  | waiting reads agrees phase waits plainly =>
    obtain ⟨follows,progress⟩ := waiting_follows quiet reads agrees phase waits plainly
    exact ⟨follows,.inr progress⟩
  | leftover reads agrees fresh plainly =>
    rename_i d socket f
    have same : ({f with core:=if f.core.changing then finalizeSetChunkSize f.core else f.core} : State) = f := by
      rw [agrees.steady]
      rfl
    have turned : turn events conf f true socket = (parse conf f socket).finish events := by
      unfold turn advance fill
      rw [if_pos rfl]
      simp only [same]
    obtain ⟨follows,progress⟩ := parse_follows quiet reads agrees fresh plainly
    rw [step_busy,turned]
    refine ⟨follows,.inr (progress.imp id fun bound => ?_)⟩
    exact lt_of_le_of_lt bound (Nat.lt_succ_self _)

theorem start_follows (plainly : socket.all plain = true) :
    Follows conf chunkSize events (bytesOn socket) (start conf chunkSize socket) := by
  exact .idle .refl ⟨rfl,rfl,rfl,rfl,rfl,rfl,rfl⟩ (.fresh rfl rfl rfl) rfl plainly

theorem reaches_final (quiet : Quiet events) (follows : Follows conf chunkSize events total c) :
    ∃ turns, final (run events c turns) = true ∧ Follows conf chunkSize events total (run events c turns) := by
  generalize size : work c = n
  induction n using Nat.strongRecOn generalizing c with
  | ind n ih =>
    obtain ⟨next,progress⟩ := step_follows quiet follows
    rcases progress with now | soon | less
    · exact ⟨0,now,follows⟩
    · exact ⟨1,soon,next⟩
    · obtain ⟨turns,rested,after⟩ := ih _ (size ▸ less) next rfl
      exact ⟨turns+1,rested,after⟩

theorem final_follows (rested : final c = true) (follows : Follows conf chunkSize events total c) :
    ∃ d rest, Reading.Reads (Decoder.next conf chunkSize events) .initial total d rest ∧
      d.next conf chunkSize events rest = none ∧ c.f.core.trace = d.trace ∧ c.f.core.destroyed = d.dead := by
  cases follows with
  | dead reads ended destroyed trace =>
    refine ⟨_,_,reads,?_,trace,destroyed.trans ended.symm⟩
    unfold Decoder.next
    exact if_pos ended
  | idle reads agrees phase waits plainly =>
    rename_i d socket f
    have empty : socket = [] := by
      simpa [final,agrees.kept] using rested
    subst empty
    rw [show f.bytes ++ bytesOn [] = f.bytes from append_nil _] at reads
    exact ⟨d,f.bytes,reads,waits,agrees.trace,agrees.kept.trans agrees.alive.symm⟩
  | waiting reads agrees phase waits plainly => cases rested
  | leftover reads agrees fresh plainly => cases rested

end Follow

end NgxRtmp.Flow

namespace NgxRtmp.Recv
open ChunkWriter Decode List

def rests (c : Config) : Bool := c.loop.isNone && (c.s.core.destroyed || c.socket.isEmpty)

theorem Related.rests (related : Related c d) : rests c = Flow.final d := by
  have core := related.core
  have socket := related.socket
  unfold Recv.rests Flow.final
  rw [core,socket]
  cases related <;> rfl

-- It comes to rest and has delivered what the decoder reads off its bytes.
theorem run_decodes (quiet : Flow.Quiet events) (plainly : socket.all Flow.plain = true) :
    ∃ turns d rest, rests (run events (start conf chunkSize socket) turns) = true ∧
      Reading.Reads (Decoder.next conf chunkSize events) .initial (Flow.bytesOn socket) d rest ∧
      d.next conf chunkSize events rest = none ∧
      (run events (start conf chunkSize socket) turns).s.core.trace = d.trace ∧
      (run events (start conf chunkSize socket) turns).s.core.destroyed = d.dead := by
  obtain ⟨turns,rested,follows⟩ := Flow.reaches_final quiet (Flow.start_follows plainly)
  obtain ⟨d,rest,reads,waits,trace,dead⟩ := Flow.final_follows rested follows
  have related := run_related events turns (start_related conf chunkSize socket)
    (Runs.along_mono (fun c _ _ => Flow.quiet_mild quiet) (Runs.along_always _ _))
  refine ⟨turns,d,rest,related.rests.trans rested,reads,waits,?_,?_⟩
  · rw [←related.core,trace]
  · rw [←related.core,dead]

theorem segmentation_independent (conf : SrvConf) (chunkSize : Nat) (events : Events) (quiet : Flow.Quiet events)
    (one two : List Read) (plainOne : one.all Flow.plain = true) (plainTwo : two.all Flow.plain = true)
    (same : Flow.bytesOn one = Flow.bytesOn two) :
    ∃ m n, rests (run events (start conf chunkSize one) m) = true ∧ rests (run events (start conf chunkSize two) n) = true ∧
      (run events (start conf chunkSize one) m).s.core.trace = (run events (start conf chunkSize two) n).s.core.trace ∧
      (run events (start conf chunkSize one) m).s.core.destroyed =
        (run events (start conf chunkSize two) n).s.core.destroyed := by
  obtain ⟨m,d,rest,restsOne,readsOne,waitsOne,traceOne,deadOne⟩ := run_decodes quiet plainOne
  obtain ⟨n,e,_,restsTwo,readsTwo,waitsTwo,traceTwo,deadTwo⟩ := run_decodes quiet plainTwo
  obtain ⟨rfl,_⟩ := Reading.reads_unique readsOne (same ▸ readsTwo) waitsOne waitsTwo
  exact ⟨m,n,restsOne,restsTwo,traceOne.trans traceTwo.symm,deadOne.trans deadTwo.symm⟩

def pairInput : List UInt8 := [4,0,0,0,0,0,1,9,0,0,0,0,7] ++ [0xc4,8]

def pairAtOnce (acked : Bool) : List Read := [.data pairInput acked]
def pairApart (acked : Bool) : List Read := [.data (pairInput.take 13) acked,.again,.data (pairInput.drop 13) acked]
def pairPaced : List Read := pairInput.flatMap fun b => [.again,.data [b] true]

def windowEvents : Events := fun _ => [fun _ _ => (.ok,[.ackSize 1])]

def finalizeEvents : Events := fun _ => [fun _ _ => (.ok,[.finalize])]

theorem segmentation_independent_paced :
    (pairAtOnce true).all Flow.plain = true ∧ pairPaced.all Flow.plain = true ∧
    Flow.bytesOn (pairAtOnce true) = Flow.bytesOn pairPaced ∧
    ∃ m n, rests (run windowEvents (start sampleConf 128 (pairAtOnce true)) m) = true ∧
      rests (run windowEvents (start sampleConf 128 pairPaced) n) = true ∧
      (run windowEvents (start sampleConf 128 (pairAtOnce true)) m).s.core.trace =
        (run windowEvents (start sampleConf 128 pairPaced) n).s.core.trace ∧
      (run windowEvents (start sampleConf 128 (pairAtOnce true)) m).s.core.destroyed =
        (run windowEvents (start sampleConf 128 pairPaced) n).s.core.destroyed := by
  refine ⟨by decide,by decide,by decide,segmentation_independent _ _ _ ?_ _ _ (by decide) (by decide) (by decide)⟩
  intro type handler member history d
  obtain rfl := mem_singleton.mp member
  rfl

-- ngx_rtmp_recv looks at c->destroyed on entry only, and the acknowledgements depend on the reads.
theorem segmentation_shows_finalized :
    (Flow.bytesOn (pairAtOnce true) = Flow.bytesOn (pairApart true) ∧
      ((run finalizeEvents (start sampleConf 128 (pairAtOnce true)) 9).s.core.trace.map Delivery.payload = [[7],[8]] ∧
        rests (run finalizeEvents (start sampleConf 128 (pairAtOnce true)) 9) = true) ∧
      (run finalizeEvents (start sampleConf 128 (pairApart true)) 9).s.core.trace.map Delivery.payload = [[7]] ∧
        rests (run finalizeEvents (start sampleConf 128 (pairApart true)) 9) = true) ∧
    Flow.bytesOn (pairAtOnce false) = Flow.bytesOn (pairApart false) ∧
      ((run windowEvents (start sampleConf 128 (pairAtOnce false)) 9).s.core.trace.map Delivery.payload = [[7],[8]] ∧
        rests (run windowEvents (start sampleConf 128 (pairAtOnce false)) 9) = true) ∧
      (run windowEvents (start sampleConf 128 (pairApart false)) 9).s.core.trace.map Delivery.payload = [[7]] ∧
        rests (run windowEvents (start sampleConf 128 (pairApart false)) 9) = true := by
  decide +kernel

end NgxRtmp.Recv
