import SniperSim.Library.ExceptSpec
import SniperSim.Sift.CodeCache

open Function List Option LittleEndian
namespace Sift

namespace Reader
variable {fresh : Address → Nat → Byte} {r r' : Reader} {a : Address} {size : Byte} {bytes rest data : List Byte}
  {sinsts : List StaticInstruction} {scache : Address → Option Nat} {P : Address → Byte → List Byte → Prop}

def Passes (fresh : Address → Nat → Byte) (bytes : List Byte) (r r' : Reader) : Prop :=
  ∃ n ≤ bytes.length, ∀ rest fuel inst,
    readLoop fresh (n + fuel) (r.feed (bytes ++ rest)) inst = readLoop fresh fuel (r'.feed rest) inst

theorem Passes.refl : Passes fresh [] r r := by
  refine ⟨0,le_rfl,fun rest fuel inst => ?_⟩
  rw [Nat.zero_add,nil_append]

theorem Passes.trans (h : Passes fresh bytes r r') (h' : Passes fresh bytes' r' r'') :
    Passes fresh (bytes ++ bytes') r r'' := by
  obtain ⟨n,hn,hr⟩ := h
  obtain ⟨n',hn',hr'⟩ := h'
  refine ⟨n + n',?_,fun rest fuel inst => ?_⟩
  · rw [length_append]
    exact Nat.add_le_add hn hn'
  · rw [append_assoc,Nat.add_assoc,hr,hr']

theorem readOther_feed (hn : n < 256 ^ 4) :
    (r.feed (encodeOther type n ++ rest)).readOther fresh = (r.feed rest).handleOther fresh n (some type) := by
  have htake : (r.feed (encodeOther type n ++ rest)).take 2 = .ok ([0,type.code],r.feed (encode 4 n ++ rest)) := rfl
  simp [readOther,htake,takeNat_feed hn,RecOtherType.ofCode_code,bind,Except.bind]

theorem passes_other (hn : n < 256 ^ 4) (hr : r.seenEnd = false) (hr' : r'.seenEnd = false)
    (h : ∀ rest, (r.feed (bytes ++ rest)).handleOther fresh n (some type) = .ok (r'.feed rest)) :
    Passes fresh (encodeOther type n ++ bytes) r r' := by
  refine ⟨1,?_,fun rest fuel inst => ?_⟩
  · rw [length_append,length_encodeOther]
    omega
  rw [Nat.add_comm,readLoop,append_assoc,readOther_feed hn,h]
  simp [feed,hr,hr',encodeOther,bind,Except.bind]

structure Statics (P : Address → Byte → List Byte → Prop) (sinsts : List StaticInstruction)
    (scache : Address → Option Nat) : Prop where
  sound : ∀ s ∈ sinsts, P s.addr s.size s.data
  cached : ∀ a p, scache a = some p → ∃ s, sinsts[p]? = some s ∧ s.addr = a

theorem Statics.allocate (h : Statics P sinsts scache) (hs : P a size data) :
    Statics P (sinsts ++ [⟨a,size,data,none⟩]) (update scache a (some sinsts.length)) := by
  constructor
  case sound =>
    intro s hmem
    rcases mem_append.mp hmem with hmem | hmem
    · exact h.sound s hmem
    · obtain rfl := mem_singleton.mp hmem
      exact hs
  case cached =>
    intro b p hp
    rcases eq_or_ne b a with rfl | hba
    · rw [update_self] at hp
      cases hp
      exact ⟨_,getElem?_concat_length,rfl⟩
    · rw [update_of_ne hba] at hp
      obtain ⟨s,hs,hb⟩ := h.cached b p hp
      exact ⟨s,getElem?_append_left (List.getElem?_eq_some_iff.mp hs).1 ▸ hs,hb⟩

theorem modify_next {p : Nat} {s : StaticInstruction} (i : Nat) (next : Option Nat) (hs : sinsts[p]? = some s) :
    ∃ s', (sinsts.modify i fun s => { s with next := s.next <|> next })[p]? = some s' ∧ s'.addr = s.addr := by
  rw [getElem?_modify,hs]
  exact ⟨_,rfl,by split_ifs <;> rfl⟩

theorem Statics.link (h : Statics P sinsts scache) (i : Nat) (next : Option Nat) :
    Statics P (sinsts.modify i fun s => { s with next := s.next <|> next }) scache := by
  constructor
  case sound =>
    intro s hmem
    obtain ⟨p,hp⟩ := mem_iff_getElem?.mp hmem
    rw [getElem?_modify] at hp
    obtain ⟨s',hs',rfl⟩ := map_eq_some_iff.mp hp
    have hold := h.sound s' (mem_of_getElem? hs')
    split_ifs
    · exact hold
    · exact hold
  case cached =>
    intro a p hp
    obtain ⟨s,hs,ha⟩ := h.cached a p hp
    obtain ⟨s',hs',ha'⟩ := modify_next i next hs
    exact ⟨s',hs',ha'.trans ha⟩

theorem followed_spec (h : r.followed a = some p) : ∃ s, r.sinsts[p]? = some s ∧ s.addr = a := by
  simp only [followed,bind_eq_bind,bind_eq_some_iff] at h
  obtain ⟨last,-,sinst,-,next,-,target,ht,hif⟩ := h
  split_ifs at hif with ha
  · cases hif
    exact ⟨target,ht,ha⟩

section
variable (h : Statics P r.sinsts r.scache)
include h

theorem Statics.lookup (hnew : ∀ data, r.staticInfoInstruction a size = .ok ⟨a,size,data,none⟩ → P a size data)
    (hok : r.lookupStatic a size = .ok (p,r')) :
    ∃ sinsts scache, r' = { r with sinsts := sinsts, scache := scache } ∧ Statics P sinsts scache ∧
      ∃ s, sinsts[p]? = some s ∧ s.addr = a := by
  rw [lookupStatic] at hok
  cases hf : r.followed a with
  | some q =>
    rw [hf] at hok
    cases hok
    exact ⟨_,_,rfl,h,followed_spec hf⟩
  | none =>
    simp only [hf] at hok
    cases hc : r.scache a with
    | some q =>
      simp only [hc] at hok
      split_ifs at hok
      cases hok
      exact ⟨_,_,rfl,h,h.cached a p hc⟩
    | none =>
      simp only [hc] at hok
      obtain ⟨s,hs,hok⟩ := Outcome.bind_ok hok
      obtain ⟨data,-,hdata⟩ := Outcome.bind_ok hs
      cases hok
      cases hdata
      exact ⟨_,_,rfl,h.allocate (hnew data hs),_,getElem?_concat_length,rfl⟩

theorem Statics.get (hnew : ∀ data, r.staticInfoInstruction a size = .ok ⟨a,size,data,none⟩ → P a size data)
    (hok : r.getStaticInstruction a size = .ok (p,r')) :
    ∃ sinsts scache, r' = { r with sinsts := sinsts, scache := scache, lastSinst := some p } ∧
      Statics P sinsts scache ∧ ∃ s, sinsts[p]? = some s ∧ s.addr = a := by
  obtain ⟨q,hl,hok⟩ := Outcome.bind_ok hok
  cases hok
  obtain ⟨sinsts,scache,hr,hst,s,hp,ha⟩ := h.lookup hnew hl
  rw [hr]
  cases hlast : r.lastSinst with
  | none => exact ⟨sinsts,scache,by simp [linkLast],hst,s,hp,ha⟩
  | some last =>
    obtain ⟨s',hp',ha'⟩ := modify_next last (some q.1) hp
    exact ⟨_,scache,by simp [linkLast],hst.link last (some q.1),s',hp',ha'.trans ha⟩

theorem Statics.get_ok (hs : ∀ s ∈ r.sinsts, s.addr = a → s.size = size)
    (hnew : r.staticInfoInstruction a size = .ok s) : ∃ q, r.getStaticInstruction a size = .ok q := by
  obtain ⟨q,hq⟩ : ∃ q, r.lookupStatic a size = .ok q := by
    rw [lookupStatic]
    cases r.followed a with
    | some p => exact ⟨_,rfl⟩
    | none =>
      cases hc : r.scache a with
      | some p =>
        obtain ⟨s,hp,ha⟩ := h.cached a p hc
        exact ⟨_,if_pos (by simp [hp,hs s (mem_of_getElem? hp) ha])⟩
      | none => exact ⟨_,by rw [hnew]; rfl⟩
  exact ⟨_,by rw [getStaticInstruction,hq]; rfl⟩
end

theorem getStaticInstruction_feed (input : List Byte) : (r.feed input).getStaticInstruction a size =
    (r.getStaticInstruction a size).map fun q => (q.1,q.2.feed input) := by
  have hlookup : (r.feed input).lookupStatic a size = (r.lookupStatic a size).map fun q => (q.1,q.2.feed input) := by
    have hfollowed : (r.feed input).followed a = r.followed a := rfl
    have hscache : (r.feed input).scache a = r.scache a := rfl
    have hstatic : (r.feed input).staticInfoInstruction a size = r.staticInfoInstruction a size := rfl
    rw [lookupStatic,lookupStatic,hfollowed,hscache,hstatic]
    cases r.followed a with
    | some p => rfl
    | none =>
      cases r.scache a with
      | some p =>
        have hsinsts : (r.feed input).sinsts = r.sinsts := rfl
        simp only [hsinsts]
        split_ifs <;> rfl
      | none => cases r.staticInfoInstruction a size <;> rfl
  rw [getStaticInstruction,getStaticInstruction,hlookup]
  cases r.lookupStatic a size <;> rfl

theorem readAddresses_feed (i : Nat) (f : Nat → Address) (addresses : List Address) : ∃ f', (∀ (r : Reader) rest,
        readAddresses addresses.length i (r.feed (encodeAddresses addresses ++ rest)) f =
          .ok (f',r.feed rest)) ∧ (∀ j < i, f' j = f j) ∧
      (range addresses.length).map (fun j => f' (i + j)) = addresses := by
  induction addresses generalizing i f with
  | nil => exact ⟨f,fun _ _ => rfl,fun _ _ => rfl,rfl⟩
  | cons a as ih =>
    obtain ⟨f',heq,hlow,hmap⟩ := ih (i + 1) (update f i a)
    refine ⟨f',fun r rest => ?_,fun j hj => ?_,?_⟩
    · have hbytes : encodeAddresses (a :: as) ++ rest = encodeAddress a ++ (encodeAddresses as ++ rest) := by
        simp [encodeAddresses]
      rw [length_cons,readAddresses,hbytes,takeAddress_feed]
      exact heq r rest
    · rw [hlow j (by omega),update_of_ne (by omega)]
    · rw [length_cons,range_succ_eq_map,map_cons,List.map_map]
      congr 1
      · rw [Nat.add_zero,hlow i (by omega),update_self]
      · refine Eq.trans (map_congr_left fun j _ => ?_) hmap
        change f' (i + (j + 1)) = f' (i + 1 + j)
        congr 1
        omega

theorem finishInstruction_feed (inst : Instruction) (addresses : List Address)
    (hn : inst.numAddresses = addresses.length) : ∃ f, (range addresses.length).map f = addresses ∧
      ∀ (r : Reader) rest a size, (r.feed (encodeAddresses addresses ++ rest)).finishInstruction inst a size =
        (getStaticInstruction { r with lastAddress := a + size.setWidth 64 } a size).map fun q =>
          ({ inst with addresses := f, sinst := q.1 },q.2.feed rest) := by
  obtain ⟨f,hread,-,hmap⟩ := readAddresses_feed 0 inst.addresses addresses
  refine ⟨f,by simpa using hmap,fun r rest a size => ?_⟩
  rw [← hn] at hread
  have hread' := hread { r with lastAddress := a + size.setWidth 64 } rest
  have hget := @getStaticInstruction_feed { r with lastAddress := a + size.setWidth 64 } a size rest
  simp only [feed] at hread' hget
  simp only [finishInstruction,feed,hread',bind,Except.bind,hget]
  cases getStaticInstruction { r with lastAddress := a + size.setWidth 64 } a size <;> rfl

end Reader
end Sift
