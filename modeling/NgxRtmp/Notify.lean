import NgxRtmp.HlsRestoreRuns
import NgxRtmp.Lib.Paths

namespace NgxRtmp.Notify
open List

open HlsRestore (bytes decimal digits)
open Paths

-- The table of ngx_escape_uri for NGX_ESCAPE_ARGS, a bit for each byte.
def escapeTable : List Nat := [0xffffffff,0x88000869,0,0x80000000,0xffffffff,0xffffffff,0xffffffff,0xffffffff]
def escaped (c : UInt8) : Bool := (escapeTable.getD (c.toNat/32) 0).testBit (c.toNat % 32)
def hex (n : Nat) : UInt8 := UInt8.ofNat (if n < 10 then 48+n else 87+n)

def escapeUri (text : List UInt8) : List UInt8 :=
  text.flatMap fun c => if escaped c then [37,hex (c.toNat/16),hex (c.toNat % 16)] else [c]

def signed (n : Int) : List UInt8 := if n < 0 then 45::decimal n.natAbs else decimal n.natAbs

def sizeof (text : String) : Nat := (bytes text).length+1

def ampersand : UInt8 := 38
def equalsSign : UInt8 := 61

def strchr (text : List UInt8) (c : UInt8) : Option Nat := if text.idxOf c < text.length then some (text.idxOf c) else none

-- The loop over the arguments. ngx_rtmp_notify_play_create without a command computes the end from a
-- null pointer, in front of every `=`.
def writeArgs (command : Bool) : Nat → List UInt8 → List UInt8
  | 0,_ => []
  | fuel+1,text =>
    match strchr text equalsSign with
    | none => []
    | some equals =>
      match strchr text ampersand with
      | some argEnd =>
        if argEnd ≤ equals then []
        else text.take (equals+1) ++ escapeUri ((text.take argEnd).drop (equals+1)) ++
          ampersand::writeArgs command fuel (text.drop (argEnd+1))
      | none => if command then text.take (equals+1) ++ escapeUri (text.drop (equals+1)) ++ [ampersand] else []

def argsPart (command : Bool) (argsLen : Nat) (text : List UInt8) : List UInt8 :=
  if argsLen = 0 then [] else ampersand::writeArgs command (text.length+1) text

def optional (name : String) (value : List UInt8) (written : List UInt8) : List UInt8 := if value = [] then [] else bytes name ++ written

inductive Call where
  | playDone
  | publishDone
  | done

def Call.cbname : Call → List UInt8
  | .playDone => bytes "play_done"
  | .publishDone => bytes "publish_done"
  | .done => bytes "done"

def Call.server (call : Call) (server : List UInt8) : List UInt8 :=
  match call with
  | .playDone | .publishDone => server
  | .done => []

def suffix (flags : UInt64) : List UInt8 :=
  if flags &&& 1 ≠ 0 then bytes "_publish" else if flags &&& 2 ≠ 0 then bytes "_play" else []

-- `server` is s->host_in or the up_srv_name of its server. `play` without a command has arguments that
-- no zero ends: `beyond` are the bytes up to the next one.
inductive Request where
  | publish (server name type args : List UInt8) (flags updateTimeout : Int64)
  | play (server name : List UInt8) (start duration : UInt32) (reset : Bool) (command : Bool) (args beyond : List UInt8)
  | done (call : Call) (server name args : List UInt8)
  | update (server name args : List UInt8) (flags : UInt64) (time : Int64) (currentTime : Int32)

-- What the builders ask ngx_create_temp_buf for, with NGX_INT32_LEN 11 and
-- NGX_TIME_T_LEN 20.
def Request.size : Request → Nat
  | .publish server name type args _ _ =>
    sizeof "&call=publish"+sizeof "&srv="+server.length+sizeof "&name="+name.length*3+sizeof "&type="+type.length*3+
      sizeof "&flags="+11+sizeof "&updatetimeout="+11+1+args.length
  | .play server name _ _ _ _ args _ =>
    sizeof "&call=play"+sizeof "&srv="+server.length+sizeof "&name="+name.length*3+sizeof "&start=&duration=&reset="+11*3+1+args.length
  | .done call server name args =>
    sizeof "&call="+call.cbname.length+sizeof "&srv="+(call.server server).length+sizeof "&name="+name.length*3+1+args.length
  | .update server name args flags _ _ =>
    sizeof "&call=update"+(suffix flags).length+sizeof "&time="+20+sizeof "&timestamp="+11+
      sizeof "&srv="+server.length+sizeof "&name="+name.length*3+1+args.length

def playText (start duration : UInt32) (reset : Bool) : List UInt8 :=
  bytes "&start=" ++ decimal start.toNat ++ bytes "&duration=" ++ decimal duration.toNat ++ bytes "&reset=" ++ decimal reset.toNat

-- What they write. ngx_snprintf stops at the end of the buffer.
def Request.text : Request → List UInt8
  | .publish server name type args flags updateTimeout =>
    bytes "&call=publish" ++ optional "&srv=" server server ++ bytes "&name=" ++ escapeUri name ++ bytes "&type=" ++ escapeUri type ++
      bytes "&flags=" ++ signed flags.toInt ++ bytes "&updatetimeout=" ++ signed updateTimeout.toInt ++ argsPart true args.length args
  | .play server name start duration reset command args beyond =>
    let first := bytes "&call=play" ++ optional "&srv=" server server ++ bytes "&name=" ++ escapeUri name
    first ++ (playText start duration reset).take ((Request.play server name start duration reset command args beyond).size-first.length) ++
      argsPart command args.length (if command then args else args ++ beyond)
  | .done call server name args =>
    bytes "&call=" ++ call.cbname ++ optional "&srv=" (call.server server) (call.server server) ++
      optional "&name=" name (escapeUri name) ++ argsPart true args.length args
  | .update server name args flags time currentTime =>
    bytes "&call=update" ++ suffix flags ++ bytes "&time=" ++ signed time.toInt ++ bytes "&timestamp=" ++ signed currentTime.toInt ++
      optional "&srv=" server server ++ optional "&name=" name (escapeUri name) ++ argsPart true args.length args

def escapes (text : List UInt8) : Nat := text.countP escaped
def plain (text : List UInt8) : Nat := text.countP (!escaped ·)

-- The arguments that are written: the first ones, as long as each has an `=`.
def arguments (command : Bool) (text : List UInt8) : List (List UInt8) :=
  (if command then components ampersand text else (components ampersand text).dropLast).takeWhile (equalsSign ∈ ·)

def value (argument : List UInt8) : List UInt8 := argument.drop (argument.idxOf equalsSign+1)

-- Each costs its bytes, the `&`, and two more for each byte of its value that is escaped.
def cost (command : Bool) (text : List UInt8) : Nat :=
  ((arguments command text).map fun argument => argument.length+1+2*escapes (value argument)).sum

def argsCost (command : Bool) (argsLen : Nat) (text : List UInt8) : Nat := if argsLen = 0 then 0 else 1+cost command text

-- They fit into the room counted for them and what the rest leaves free: names that are not escaped,
-- the zeroes of sizeof, and digits.
def Request.Fits : Request → Prop
  | .publish server name type args flags updateTimeout =>
    (if server = [] then 0 else 5)+(signed flags.toInt).length+(signed updateTimeout.toInt).length+argsCost true args.length args ≤
      34+2*plain name+2*plain type+args.length
  | .play server name start duration _ command args beyond =>
    (if server = [] then 0 else 5)+(decimal start.toNat).length+(decimal duration.toNat).length+
      argsCost command args.length (if command then args else args ++ beyond) ≤ 42+2*plain name+args.length
  | .done call server name args =>
    (if call.server server = [] then 0 else 5)+(if name = [] then 0 else 6)+argsCost true args.length args ≤ 15+2*plain name+args.length
  | .update server name args _ time currentTime =>
    (if server = [] then 0 else 5)+(if name = [] then 0 else 6)+(signed time.toInt).length+(signed currentTime.toInt).length+
      argsCost true args.length args ≤ 48+2*plain name+args.length

theorem escapeUri_length : (escapeUri text).length = text.length+2*escapes text := by
  induction text with
  | nil => rfl
  | cons c rest ih =>
    unfold escapeUri escapes at *
    rw [flatMap_cons,length_append,ih,countP_cons,length_cons]
    cases escaped c
    · simp
      omega
    · simp
      omega

theorem escapes_plain (text : List UInt8) : escapes text+plain text = text.length := by
  induction text with
  | nil => rfl
  | cons c rest ih =>
    unfold escapes plain at *
    rw [countP_cons,countP_cons,length_cons]
    cases escaped c <;> simp <;> omega

theorem strchr_none (absent : c ∉ text) : strchr text c = none :=
  if_neg fun found => absent (idxOf_lt_length_iff.mp found)

theorem strchr_some (present : c ∈ text) : strchr text c = some (text.idxOf c) :=
  if_pos (idxOf_lt_length_iff.mpr present)

theorem arguments_last (clean : ampersand ∉ text) :
    arguments command text = if command ∧ equalsSign ∈ text then [text] else [] := by
  unfold arguments
  rw [components_clean clean]
  cases command
  · rfl
  · by_cases has : equalsSign ∈ text <;> simp [has]

theorem arguments_cons (clean : ampersand ∉ first) :
    arguments command (first ++ ampersand::rest) = if equalsSign ∈ first then first::arguments command rest else [] := by
  have more : components ampersand rest ≠ [] := components_ne_nil
  unfold arguments
  rw [components_append,components_clean clean]
  cases command
  · simp only [Bool.false_eq_true,if_false,cons_append,nil_append,dropLast_cons_of_ne_nil more]
    by_cases has : equalsSign ∈ first <;> simp [has]
  · by_cases has : equalsSign ∈ first <;> simp [has]

theorem writeArgs_length (enough : text.length < fuel) : (writeArgs command fuel text).length = cost command text := by
  induction fuel generalizing text with
  | zero => cases enough
  | succ fuel ih =>
    unfold writeArgs cost
    by_cases amp : ampersand ∈ text
    · obtain ⟨first,rest,rfl,clean⟩ := eq_append_cons_of_mem amp
      have stop : (first ++ ampersand::rest).idxOf ampersand = first.length := by
        rw [idxOf_append_of_notMem clean,idxOf_cons_self,add_zero]
      rw [arguments_cons clean,strchr_some amp,stop]
      by_cases has : equalsSign ∈ first
      · have below := idxOf_lt_length_iff.mpr has
        have shorter : rest.length < fuel := by
          rw [length_append,length_cons] at enough
          omega
        rw [strchr_some (mem_append_left _ has),idxOf_append_of_mem has,if_pos has]
        dsimp only
        rw [if_neg (Nat.not_le.mpr below),take_left,map_cons,sum_cons]
        have dropped : (first ++ ampersand::rest).drop (first.length+1) = rest := by simp
        have taken : ((first ++ ampersand::rest).take (first.idxOf equalsSign+1)).length = first.idxOf equalsSign+1 := by
          rw [length_take,length_append]
          omega
        rw [dropped,length_append,length_append,taken,escapeUri_length,length_drop,length_cons,ih shorter]
        unfold cost value
        omega
      · rw [if_neg has]
        by_cases later : equalsSign ∈ first ++ ampersand::rest
        · have beyond : first.length ≤ (first ++ ampersand::rest).idxOf equalsSign := by
            rw [idxOf_append_of_notMem has]
            exact Nat.le_add_right ..
          rw [strchr_some later]
          dsimp only
          rw [if_pos beyond]
          rfl
        · rw [strchr_none later]
          rfl
    · rw [arguments_last amp,strchr_none amp]
      by_cases has : equalsSign ∈ text
      · have below := idxOf_lt_length_iff.mpr has
        rw [strchr_some has]
        cases command
        · simp
        · simp only [if_true,has,and_self,map_cons,map_nil,sum_cons,sum_nil,length_append,escapeUri_length,
            length_take,length_drop,length_singleton,value]
          omega
      · rw [strchr_none has]
        simp [has]

theorem argsPart_length : (argsPart command argsLen text).length = argsCost command argsLen text := by
  unfold argsPart argsCost
  split
  · rfl
  · rw [length_cons,writeArgs_length (Nat.lt_succ_self _),add_comm]

theorem optional_length {value : List UInt8} :
    (optional name value value).length = value.length+if value = [] then 0 else (bytes name).length := by
  unfold optional
  split
  · rename_i empty
    simp [empty]
  · rw [length_append,add_comm]

theorem optional_escaped {value : List UInt8} :
    (optional name value (escapeUri value)).length = value.length+2*escapes value+if value = [] then 0 else (bytes name).length := by
  unfold optional
  split
  · rename_i empty
    simp [empty,escapes]
  · rw [length_append,escapeUri_length,add_comm]

theorem digits_short (width k : Nat) (small : n < 10^(k+1)) : (digits width n).length ≤ k+1 := by
  induction k generalizing width n with
  | zero =>
    cases width with
    | zero => simp [digits]
    | succ width =>
      rw [digits,if_pos (by omega)]
      simp
  | succ k ih =>
    cases width with
    | zero => simp [digits]
    | succ width =>
      rw [digits]
      split
      · simp
      · have shorter := ih width (n:=n/10) (by rw [pow_succ] at small; omega)
        rw [length_append,length_singleton]
        omega

theorem decimal_word (n : UInt32) : (decimal n.toNat).length ≤ 10 := by
  apply digits_short 20 9
  have bound := n.toNat_lt
  omega

theorem playText_length {start : UInt32} :
    (playText start duration reset).length = 25+(decimal start.toNat).length+(decimal duration.toNat).length := by
  have one : (decimal reset.toNat).length = 1 := by cases reset <;> rfl
  have texts : (bytes "&start=").length = 7 ∧ (bytes "&duration=").length = 10 ∧ (bytes "&reset=").length = 7 := ⟨rfl,rfl,rfl⟩
  unfold playText
  simp only [length_append,one,texts]
  omega

theorem playText_whole {start : UInt32} {command : Bool} {beyond : List UInt8} :
    (playText start duration reset).take ((Request.play server name start duration reset command args beyond).size-
      (bytes "&call=play" ++ optional "&srv=" server server ++ bytes "&name=" ++ escapeUri name).length) = playText start duration reset := by
  have names := escapes_plain name
  have first := decimal_word start
  have second := decimal_word duration
  have texts : (bytes "&call=play").length = 10 ∧ (bytes "&srv=").length = 5 ∧ (bytes "&name=").length = 6 ∧
    (bytes "&start=&duration=&reset=").length = 24 := ⟨rfl,rfl,rfl,rfl⟩
  apply take_of_length_le
  simp only [playText_length,Request.size,sizeof,length_append,optional_length,escapeUri_length,texts]
  split <;> omega

theorem notify_request_fits (r : Request) : r.text.length ≤ r.size ↔ r.Fits := by
  cases r with
  | publish server name type args flags updateTimeout =>
    have names := escapes_plain name
    have types := escapes_plain type
    have texts : (bytes "&call=publish").length = 13 ∧ (bytes "&srv=").length = 5 ∧ (bytes "&name=").length = 6 ∧
      (bytes "&type=").length = 6 ∧ (bytes "&flags=").length = 7 ∧ (bytes "&updatetimeout=").length = 15 := ⟨rfl,rfl,rfl,rfl,rfl,rfl⟩
    simp only [Request.text,Request.size,Request.Fits,sizeof,length_append,optional_length,argsPart_length,escapeUri_length,texts]
    omega
  | play server name start duration reset command args beyond =>
    have names := escapes_plain name
    have texts : (bytes "&call=play").length = 10 ∧ (bytes "&srv=").length = 5 ∧ (bytes "&name=").length = 6 ∧
      (bytes "&start=&duration=&reset=").length = 24 := ⟨rfl,rfl,rfl,rfl⟩
    unfold Request.text
    dsimp only
    rw [playText_whole]
    simp only [playText_length,Request.size,Request.Fits,sizeof,length_append,optional_length,argsPart_length,escapeUri_length,texts]
    omega
  | done call server name args =>
    have names := escapes_plain name
    have texts : (bytes "&call=").length = 6 ∧ (bytes "&srv=").length = 5 ∧ (bytes "&name=").length = 6 := ⟨rfl,rfl,rfl⟩
    simp only [Request.text,Request.size,Request.Fits,sizeof,length_append,optional_length,optional_escaped,argsPart_length,texts]
    omega
  | update server name args flags time currentTime =>
    have names := escapes_plain name
    have texts : (bytes "&call=update").length = 12 ∧ (bytes "&time=").length = 6 ∧ (bytes "&timestamp=").length = 11 ∧
      (bytes "&srv=").length = 5 ∧ (bytes "&name=").length = 6 := ⟨rfl,rfl,rfl,rfl,rfl⟩
    simp only [Request.text,Request.size,Request.Fits,sizeof,length_append,optional_length,optional_escaped,argsPart_length,texts]
    omega

-- One argument of forty spaces, each of which becomes `%20`.
theorem escaped_arguments_overflow : (Request.done .done [] [110] (97::61::List.replicate 40 32)).text.length = 141 ∧
    (Request.done .done [] [110] (97::61::List.replicate 40 32)).size = 70 ∧
    (Request.publish [104] [110] (bytes "live") (97::61::List.replicate 40 32) 1 30000).size <
      (Request.publish [104] [110] (bytes "live") (97::61::List.replicate 40 32) 1 30000).text.length := by
  decide +kernel

end NgxRtmp.Notify
