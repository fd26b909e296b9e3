import NgxRtmp.PacketWriter

namespace NgxRtmp.PlayQueue
open ChunkWriter

def csidAmf : UInt32 := 5
def csidAudio : UInt32 := 6
def csidVideo : UInt32 := 7
def msgAmfMeta : UInt8 := 18
def msid : UInt32 := 1

-- `wait` is a positive result, the milliseconds of the timer.
inductive Rc where
  | ok
  | again
  | wait (time : UInt32)
  | done
  | error
  deriving DecidableEq, Repr

-- ngx_rtmp_play_send posts or schedules the event again unless the result ends the playback.
def Rc.ends : Rc → Bool
  | .done => true
  | .error => true
  | _ => false

abbrev Clocks := UInt32 → Clock

def hear (clocks : Clocks) (m : Message) : Clocks := fun csid =>
  if m.h.csid = csid then (clocks csid).read m.fmt m.field else clocks csid

def recovered : Clocks → List Message → List (Message × UInt32)
  | _,[] => []
  | clocks,m::rest => (m,(hear clocks m m.h.csid).timestamp)::recovered (hear clocks m) rest

def hearAll (clocks : Clocks) (log : List Message) : Clocks := log.foldl hear clocks

theorem hear_own : hear clocks m m.h.csid = (clocks m.h.csid).read m.fmt m.field := by
  simp [hear]

theorem hear_other (clocks : Clocks) (other : m.h.csid ≠ csid) : hear clocks m csid = clocks csid := by
  simp [hear,other]

theorem hear_absolute (first : m.lh = none) : (hear clocks m m.h.csid).timestamp = m.h.timestamp := by
  rw [hear_own]
  simp [Message.fmt,Message.field,first,chunkFormat,Clock.read]

-- It gives format 1, and the clock moves by the difference.
theorem hear_relative (last : m.lh = some {m.h with timestamp:=t})
    (named : m.h.csid ≠ 0) (blank : m.h.mlen = 0) (held : (clocks m.h.csid).timestamp = t) :
    (hear clocks m m.h.csid).timestamp = m.h.timestamp := by
  have longer : ¬(¬m.mlen = 0 ∧ m.mlen = 0) := fun both => both.1 both.2
  have format : chunkFormat m.h m.lh m.mlen = (1,m.h.timestamp-t) := by
    rw [last]
    simp only [chunkFormat,ne_eq,named,not_false_eq_true,and_self,true_and,if_true,blank]
    rw [if_neg longer]
  rw [hear_own,Message.fmt,Message.field,format]
  change (clocks m.h.csid).timestamp+(m.h.timestamp-t) = m.h.timestamp
  rw [held,UInt32.add_comm,UInt32.sub_add_cancel]

end NgxRtmp.PlayQueue
