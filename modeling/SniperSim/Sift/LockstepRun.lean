import SniperSim.Sift.Lockstep

open LittleEndian
namespace Sift

def Access.initial (a : Access) : List Byte :=
  match a.op with
  | .read => .replicate a.buffer.length 0
  | _ => a.buffer

structure Transcript (M ρ : Type) where
  served : List Served
  results : List AccessResult
  memory : M
  value : ρ

section
variable {M ρ : Type} (cb : MemoryCallback M)

def Access.perform (a : Access) (m : M) : M × List Byte := cb.run m (some a.lock) a.op a.addr a.initial

def Access.entry (a : Access) (m : M) : Served := ⟨some a.lock,a.op,a.addr,a.initial,(a.perform cb m).2⟩

def Access.outcome (a : Access) (m : M) : List Byte :=
  match a.op with
  | .read => (a.perform cb m).2
  | _ => a.buffer

def Handler.direct : Handler ρ → M → Transcript M ρ
  | .reply value, m => ⟨[],[],m,value⟩
  | .access a next, m =>
    let rest := (next true (a.outcome cb m)).direct (a.perform cb m).1
    ⟨a.entry cb m :: rest.served,⟨a,true,a.outcome cb m⟩ :: rest.results,rest.memory,rest.value⟩
end

open List Confluence Duplex

@[simp] theorem length_encodeRecord (type : Byte) (size : Nat) : (encodeRecord type size).length = 6 := by
  simp [encodeRecord]

theorem decodeRecord_encodeRecord (type : Byte) (size : Nat) :
    decodeRecord (encodeRecord type size) = ⟨0,type,size % 4294967296⟩ := by
  have hsize := decode_encode 4 size
  simpa [decodeRecord,encodeRecord] using hsize

@[simp] theorem MemoryLockType.ofCode_code (t : MemoryLockType) : ofCode t.code = some t := by
  cases t <;> rfl

@[simp] theorem MemoryOpType.ofCode_code (t : MemoryOpType) : ofCode t.code = some t := by
  cases t <;> rfl

theorem MemoryLockType.code_lt (t : MemoryLockType) : t.code < 256 ^ 4 := by
  cases t <;> decide

theorem MemoryOpType.code_lt (t : MemoryOpType) : t.code < 256 ^ 4 := by
  cases t <;> decide

namespace Access
variable {a : Access}

@[simp] theorem length_fields : a.fields.length = 20 := by simp [fields]

theorem decodeFields_fields : decodeFields a.fields = ⟨a.addr,a.buffer.length,some a.lock,some a.op⟩ := by
  have hsize : a.buffer.length < 256 ^ 4 := a.fits
  have hs := decode_encode_of_lt hsize
  have hl := decode_encode_of_lt a.lock.code_lt
  have ho := decode_encode_of_lt a.op.code_lt
  have ha : ∀ j, 8 ≤ j → (encodeAddress a.addr).drop j = [] := fun j hj => drop_encode hj _
  simp [decodeFields,fields,drop_append,drop_encode,hs,hl,ho,ha]

end Access

namespace RequestKind

theorem decodeReply_encodeReply (res : EmuReply) (k : RequestKind) (v : k.Reply) :
    k.decodeReply res (k.encodeReply v) = v := by
  cases k with
  | syscall | magic | instructionCount | newThread | join | sync | fork => exact ofNat_decode_encode (by decide) v
  | emulate =>
    obtain ⟨handled,reply⟩ := v
    have hr := ofNat_decode_encode (k := 48) (by decide) reply
    cases handled <;> simpa [decodeReply,encodeReply,drop_encode] using hr

end RequestKind

namespace Request
variable (r : Request)

theorem loop_response : r.loop.response = r.kind.responseType := by
  cases r <;> rfl

theorem loop_accepts (v : r.kind.Reply) : r.loop.accepts ((r.kind.encodeReply v).length % 4294967296) := by
  cases r <;> simp [loop,kind,RequestKind.encodeReply,instructionCountLoop,newThreadLoop,syscallLoop,
    joinLoop,syncLoop,forkLoop,magicLoop,emulateLoop]

theorem replySize_length (v : r.kind.Reply) :
    WriterSide.replySize r.kind ((r.kind.encodeReply v).length % 4294967296) = (r.kind.encodeReply v).length := by
  cases r <;> simp [kind,RequestKind.encodeReply,WriterSide.replySize]

def Fits : Request → Prop
  | .syscall _ data _ => 0 < data.length ∧ 2 + data.length < 4294967296
  | _ => True

theorem accepts_iff : r.kind.accepts (r.data.length % 4294967296) ↔ r.Fits := by
  cases r with
  | syscall number data fits =>
    simp only [kind,RequestKind.accepts,Request.data,Fits,length_append,length_encode,decide_eq_true_eq]
    omega
  | _ => simp [kind,Request.data,RequestKind.accepts,Fits]

theorem Fits.dataSize (h : r.Fits) : r.kind.dataSize (r.data.length % 4294967296) = r.data.length := by
  cases r with
  | syscall number data fits =>
    have hlt : (encode 2 number.toNat ++ data).length < 4294967296 := by
      rw [length_append,length_encode]
      exact h.2
    exact Nat.mod_eq_of_lt hlt
  | _ => simp [kind,Request.data,RequestKind.dataSize]

end Request

def Handlers.answer (h : Handlers) : (r : Request) → Option (Handler r.kind.Reply)
  | .instructionCount icount => some ((h.handleInstructionCount.map (· icount)).getD (.reply modeUnknown))
  | .newThread => h.handleNewThread
  | .syscall number data _ => h.handleSyscall.map (· number data)
  | .join thread => h.handleJoin.map (· thread)
  | .sync => some ((h.handleInstructionCount.map (· 0)).getD (.reply modeUnknown))
  | .fork => h.handleFork
  | .magic a b c => some ((h.handleMagic.map (· a b c)).getD (.reply a))
  | .emulate type req _ => some ((h.handleEmu.map (· type req)).getD (.reply (false,0)))

theorem Handlers.handle_data (h : Handlers) (r : Request) : h.handle r.kind r.data = h.answer r := by
  cases r with
  | instructionCount icount | join thread =>
    simp only [Request.kind,Request.data,handle,answer,ofNat_decode_encode (show 32 ≤ 8 * 4 by decide)]
  | syscall number data fits =>
    simp [Request.kind,Request.data,handle,answer,ofNat_decode_encode (show 16 ≤ 8 * 2 by decide)]
  | emulate type req res =>
    simp [Request.kind,Request.data,handle,answer,ofNat_decode_encode (show 16 ≤ 8 * 2 by decide),
      ofNat_decode_encode (show 64 ≤ 8 * 8 by decide)]
  | magic a b c =>
    have ha : ∀ j, 8 ≤ j → (encodeAddress a).drop j = [] := fun j hj => drop_encode hj _
    simp [Request.kind,Request.data,handle,answer,drop_append,ha]
  | _ => rfl

def Access.Answerable (a : Access) : Prop :=
  0 < a.buffer.length ∧ (a.op = .read ∨ a.op = .write ∧ 20 + a.buffer.length < 4294967296)

section
variable {M : Type} {cb : MemoryCallback M} {handlers : Handlers} {r : Request} {m : M} {sv : List Served}
  {rs : List AccessResult} {a : Access} {next : Bool → List Byte → Handler r.kind.Reply}

abbrev Goes (cb : MemoryCallback M) (handlers : Handlers) (r : Request) : Exchange M r.kind → Exchange M r.kind → Prop :=
  Leads (Exchange.next (some cb) handlers r)

def Exchange.atHandler (r : Request) (h : Handler r.kind.Reply) (m : M) (sv : List Served)
    (rs : List AccessResult) : Exchange M r.kind :=
  .mk ⟨.header,m,sv⟩ (ReaderSide.proceed r.kind rs h).1 [] (ReaderSide.proceed r.kind rs h).2

theorem leads_record (type : RecOtherType) (n : Nat) :
    Goes cb handlers r (.mk left ⟨.peek,rs⟩ (encodeOther type n ++ xs) ys)
      (.mk left ⟨ReaderSide.readOther (n % 4294967296) (some type),rs⟩ xs ys) := by
  have hpeek : Goes cb handlers r
      (.mk left ⟨.peek,rs⟩ ([0] ++ ((type.code :: encode 4 n) ++ xs)) ys)
      (.mk left ⟨.header,rs⟩ ((type.code :: encode 4 n) ++ xs) ys) :=
    leads_right_silent rfl rfl rfl
  refine hpeek.trans (leads_right_silent rfl (by simp) ?_)
  have hsize := decode_encode 4 n
  have hcode := RecOtherType.ofCode_code type
  simp [readerParty,ReaderSide.feed,hsize,hcode]

variable (cfg : WriterConfig)
variable (lookup : Address → Address) (w : Writer)

theorem leads_mapping (va : Address) : Goes cb handlers r
      (.mk left ⟨.peek,rs⟩ ((w.sendVa2pa cfg lookup va).2 ++ xs) ys) (.mk left ⟨.peek,rs⟩ xs ys) := by
  unfold Writer.sendVa2pa
  dsimp only
  split_ifs
  · exact .refl
  · exact .refl
  · rw [append_assoc]
    exact (leads_record _ _).trans (leads_right_silent rfl (by simp) rfl)
  · exact .refl

theorem leads_argumentMapping (q : Request) : Goes cb handlers r
      (.mk left ⟨.peek,rs⟩ ((w.sendArgumentMapping cfg lookup q).2 ++ xs) ys) (.mk left ⟨.peek,rs⟩ xs ys) := by
  cases q with
  | syscall number data fits =>
    rw [Writer.sendArgumentMapping]
    cases argumentOffset number with
    | some k => exact leads_mapping cfg lookup w _
    | none => exact .refl
  | _ => exact .refl

theorem leads_send (hr : r.reads readable) :
    Goes cb handlers r (Exchange.start cfg lookup readable w r m) (.mk ⟨.header,m,[]⟩
        ⟨ReaderSide.readOther (r.data.length % 4294967296) (some r.kind.recordType),[]⟩ r.data []) := by
  rw [Exchange.start,if_pos hr]
  refine (leads_argumentMapping cfg lookup w r).trans ?_
  exact leads_record _ _

theorem readOther_request (n : Nat) (k : RequestKind) :
    ReaderSide.readOther n (some k.recordType) = if k.accepts n then .data k n else .aborted := by
  cases k <;> rfl

theorem leads_handler (hr : r.reads readable) (hf : r.Fits) (hh : handlers.answer r = some h) :
    Goes cb handlers r (Exchange.start cfg lookup readable w r m) (Exchange.atHandler r h m [] []) := by
  refine (leads_send cfg lookup w hr).trans ?_
  rw [readOther_request,if_pos (r.accepts_iff.mpr hf)]
  have hneed : (readerParty handlers).need ⟨.data r.kind (r.data.length % 4294967296),[]⟩ =
      some r.data.length := congrArg some hf.dataSize
  have hfeed : (readerParty handlers).feed ⟨.data r.kind (r.data.length % 4294967296),[]⟩ r.data =
      ReaderSide.proceed r.kind [] h := by
    simp only [readerParty,ReaderSide.feed,handlers.handle_data,hh]
  exact leads_right hneed rfl hfeed

theorem Request.loop_read_memoryRequest (n : Nat) : r.loop.read ⟨0,ResponseType.memoryRequest.code,n⟩ =
      if r.loop.serves then if n < 20 then .header else .memoryRequest n else r.loop.other := by
  have hne : ResponseType.memoryRequest.code ≠ r.loop.response.code := by
    rw [r.loop_response]
    cases r.kind <;> decide
  rw [ReplyLoop.read,if_neg (by simp),if_neg hne]
  simp

theorem leads_reply (v : r.kind.Reply) : Goes cb handlers r (Exchange.atHandler r (.reply v) m sv rs)
      (.mk ⟨.returned v,m,sv⟩ ⟨.peek,rs⟩ [] []) := by
  have hhead : Goes cb handlers r (Exchange.atHandler r (.reply v) m sv rs)
      (.mk ⟨.reply ((r.kind.encodeReply v).length % 4294967296),m,sv⟩ ⟨.peek,rs⟩ [] (r.kind.encodeReply v)) := by
    refine leads_left_silent rfl (length_encodeRecord _ _) ?_
    simp only [writerParty,WriterSide.feed,decodeRecord_encodeRecord]
    rw [ReplyLoop.read,if_neg (by simp),if_pos (by rw [r.loop_response]),if_pos (r.loop_accepts v)]
  refine hhead.trans (leads_left (congrArg some (r.replySize_length v)) rfl ?_)
  simp only [writerParty,WriterSide.feed,RequestKind.decodeReply_encodeReply]

def Access.returned (cb : MemoryCallback M) (a : Access) (m : M) : List Byte :=
  match a.op with
  | .read => (a.perform cb m).2
  | _ => []

theorem Access.length_perform (a : Access) (m : M) : (a.perform cb m).2.length = a.buffer.length := by
  rw [Access.perform,cb.length_run,Access.initial]
  split
  · exact length_replicate
  · rfl

theorem leads_requested (hs : r.loop.serves) (hn : 20 + a.payload.length < 4294967296) :
    Goes cb handlers r (Exchange.atHandler r (.access a next) m sv rs)
      (.mk ⟨.memoryRequest (20 + a.payload.length),m,sv⟩ ⟨.response r.kind a next,rs⟩ []
        (a.fields ++ a.payload)) := by
  refine leads_left_silent rfl (length_encodeRecord _ _) ?_
  simp only [writerParty,WriterSide.feed,decodeRecord_encodeRecord]
  rw [r.loop_read_memoryRequest,if_pos hs,Nat.mod_eq_of_lt hn,if_neg (by omega)]

theorem feed_fields (size : Nat) : (writerParty (some cb) r).feed ⟨.memoryRequest size,m,sv⟩ a.fields =
      WriterSide.handleMemoryRequest (some cb) ⟨.memoryRequest size,m,sv⟩ (size - 20)
        ⟨a.addr,a.buffer.length,some a.lock,some a.op⟩ := by
  simp only [writerParty,WriterSide.feed,Access.decodeFields_fields]

theorem leads_served (hs : r.loop.serves) (ha : a.Answerable) :
    Goes cb handlers r (Exchange.atHandler r (.access a next) m sv rs)
      (.mk ⟨.header,(a.perform cb m).1,sv ++ [a.entry cb m]⟩ ⟨.response r.kind a next,rs⟩
        (encodeMemoryResponse a.op a.addr (a.returned cb m)) []) := by
  obtain ⟨hpos,hop | ⟨hop,hlt⟩⟩ := ha
  all_goals have hne : a.buffer.length ≠ 0 := Nat.ne_of_gt hpos
  · have hpay : a.payload = [] := by rw [Access.payload,hop]
    refine (leads_requested hs (by simp [hpay])).trans ?_
    rw [hpay,append_nil]
    refine leads_left rfl Access.length_fields ?_
    rw [feed_fields]
    simp only [WriterSide.handleMemoryRequest,hop,length_nil,Nat.add_zero,Nat.sub_self,ne_eq,
      not_true_eq_false,if_false,if_neg hne,WriterSide.answerRead,WriterSide.perform,Access.perform,
      Access.entry,Access.returned,Access.initial]
  · have hpay : a.payload = a.buffer := by rw [Access.payload,hop]
    have hfields : Goes cb handlers r
        (.mk ⟨.memoryRequest (20 + a.buffer.length),m,sv⟩ ⟨.response r.kind a next,rs⟩ [] (a.fields ++ a.buffer))
        (.mk ⟨.payload (some a.lock) a.addr a.buffer.length,m,sv⟩ ⟨.response r.kind a next,rs⟩ [] a.buffer) := by
      refine leads_left_silent rfl Access.length_fields ?_
      rw [feed_fields,Nat.add_sub_cancel_left]
      simp only [WriterSide.handleMemoryRequest,hop,ne_eq,not_true_eq_false,if_false,if_neg hne]
    refine (leads_requested hs (by rwa [hpay])).trans ?_
    rw [hpay]
    refine hfields.trans (leads_left rfl rfl ?_)
    simp only [writerParty,WriterSide.feed,hop,WriterSide.answerWrite,WriterSide.perform,Access.perform,
      Access.entry,Access.returned,Access.initial]

theorem leads_checkAnswer (op : MemoryOpType) (data : List Byte) (hd : data.length < 4294967296) :
    Goes cb handlers r (.mk left ⟨.response r.kind a next,rs⟩ (encodeMemoryResponse op a.addr data) [])
      (.mk left (ReaderSide.checkAnswer rs r.kind a next a.addr data.length).1 data
        (ReaderSide.checkAnswer rs r.kind a next a.addr data.length).2) := by
  have hhead : Goes cb handlers r
      (.mk left ⟨.response r.kind a next,rs⟩ (encodeMemoryResponse op a.addr data) [])
      (.mk left ⟨.responseFields r.kind a next ((12 + data.length) % 4294967296),rs⟩
        (encodeAddress a.addr ++ (encode 4 op.code ++ data)) []) := by
    refine leads_right_silent rfl (length_encodeRecord _ _) ?_
    simp [readerParty,ReaderSide.feed,decodeRecord_encodeRecord]
  refine hhead.trans ?_
  rw [← append_assoc]
  refine .of_next (right_of rfl (by simp) ?_)
  have hsize : ((12 + data.length) % 4294967296 + 4294967284) % 4294967296 = data.length := by omega
  simp [readerParty,ReaderSide.feed,hsize]

theorem leads_answered (ha : a.op = .read ∨ a.op = .write) : Goes cb handlers r
      (.mk ⟨.header,m,sv⟩ ⟨.response r.kind a next,rs⟩ (encodeMemoryResponse a.op a.addr (a.returned cb m₀)) [])
      (Exchange.atHandler r (next true (a.outcome cb m₀)) m sv (rs ++ [⟨a,true,a.outcome cb m₀⟩])) := by
  rcases ha with hop | hop
  · have hlen : (a.perform cb m₀).2.length = a.buffer.length := a.length_perform m₀
    have hret : a.returned cb m₀ = (a.perform cb m₀).2 := by rw [Access.returned,hop]
    have hout : a.outcome cb m₀ = (a.perform cb m₀).2 := by rw [Access.outcome,hop]
    rw [hret,hout]
    refine (leads_checkAnswer _ _ (hlen ▸ a.fits)).trans ?_
    have hcheck : ReaderSide.checkAnswer rs r.kind a next a.addr (a.perform cb m₀).2.length =
        (⟨.responseData r.kind a next,rs⟩,[]) := by
      simp [ReaderSide.checkAnswer,hop,hlen]
    rw [hcheck]
    exact leads_right rfl hlen rfl
  · have hret : a.returned cb m₀ = [] := by rw [Access.returned,hop]
    have hout : a.outcome cb m₀ = a.buffer := by rw [Access.outcome,hop]
    rw [hret,hout]
    refine (leads_checkAnswer _ _ (by simp)).trans ?_
    have hcheck : ReaderSide.checkAnswer rs r.kind a next a.addr 0 =
        ReaderSide.accessed rs r.kind a next true a.buffer := by
      simp [ReaderSide.checkAnswer,hop]
    rw [length_nil,hcheck]
    exact .refl

theorem leads_access (hs : r.loop.serves) (ha : a.Answerable) :
    Goes cb handlers r (Exchange.atHandler r (.access a next) m sv rs)
      (Exchange.atHandler r (next true (a.outcome cb m)) (a.perform cb m).1 (sv ++ [a.entry cb m])
        (rs ++ [⟨a,true,a.outcome cb m⟩])) :=
  (leads_served hs ha).trans (leads_answered (ha.2.imp_right And.left))

theorem leads_direct (hall : ∀ x ∈ (h.direct cb m).results, r.loop.serves ∧ x.access.Answerable) :
    Goes cb handlers r (Exchange.atHandler r h m sv rs)
      (.mk ⟨.returned (h.direct cb m).value,(h.direct cb m).memory,sv ++ (h.direct cb m).served⟩
        ⟨.peek,rs ++ (h.direct cb m).results⟩ [] []) := by
  induction h generalizing m sv rs with
  | reply value =>
    rw [Handler.direct,append_nil,append_nil]
    exact leads_reply value
  | access a next ih =>
    obtain ⟨⟨hs,ha⟩,hrest⟩ := forall_mem_cons.mp hall
    rw [Handler.direct]
    dsimp only
    rw [append_cons sv,append_cons rs]
    exact (leads_access hs ha).trans (ih true (a.outcome cb m) hrest)
end
end Sift
