import Packetio.Netstack.WireFrame

/-! The segmenter sums a header once, adds the length of each segment to that sum and copies
payload across views; what it emits are the frames of the description. -/
namespace Packetio.Netstack
open Lib List Option

/-! Stores into a frame of several parts -/

variable {a b xs c frame : List UInt8} {k off : Nat} {p : PacketBuffer} {s : Segmenter}

theorem put_behind (ha : a.length=k)
    (h : off+xs.length≤b.length) : put (a++b) (k+off) xs=some (a++patch b off xs) := by
  rw [put_fits (by rw [length_append]; omega),patch_append_right ha]

theorem put_second (ha : a.length=k) (h : off+xs.length≤b.length) :
    put (a++(b++c)) (k+off) xs=some (a++(patch b off xs++c)) := by
  rw [put_behind ha (by rw [length_append]; omega),patch_append h]

theorem put_third {d : List UInt8} {l : Nat} (ha : a.length=k) (hb : b.length=l)
    (h : off+xs.length≤c.length) :
    put (a++(b++(c++d))) (k+l+off) xs=some (a++(b++(patch c off xs++d))) := by
  have hab : (a++b).length=k+l := by rw [length_append,ha,hb]
  rw [← append_assoc a b,put_second hab h,append_assoc]

theorem put_fourth {d : List UInt8} {l m : Nat} (ha : a.length=k) (hb : b.length=l)
    (hc : c.length=m) (h : xs.length≤d.length) :
    put (a++(b++(c++d))) (k+l+m) xs=some (a++(b++(c++(xs++d.drop xs.length)))) := by
  have habc : (a++(b++c)).length=k+l+m := by rw [length_append,length_append,ha,hb,hc,add_assoc]
  have hput : put (a++(b++c)++d) (k+l+m+0) xs=some (a++(b++c)++patch d 0 xs) :=
    put_behind habc (by omega)
  rw [patch_front,add_zero] at hput
  simpa only [append_assoc] using hput

/-! The sums -/

theorem internetChecksum_eq {x : UInt16} (h : x.toNat=ones (wordSum b)) :
    ~~~x=internetChecksum b := by
  refine UInt16.toNat_inj.mp ?_
  rw [internetChecksum,UInt16.toNat_not,h,UInt16.toNat_ofNat_of_lt' (by change _<65536; omega)]
  rfl

def PacketBuffer.ipTemplate (p : PacketBuffer) : List UInt8 :=
  patch (patch p.networkHeader ipTotalLenOffset [0,0]) ipChecksumOffset [0,0]

namespace Splittable
variable {p : PacketBuffer} (h : Splittable p)
include h

theorem ipTemplate_length : p.ipTemplate.length=p.networkLen := by
  rw [PacketBuffer.ipTemplate,patch_length (h.ip_room (h.ipLen_length _ rfl) (by rfl)),
    h.ipLen_length _ rfl]

theorem ipHeaderLength_template (rest : List UInt8) :
    ipHeaderLength (p.ipTemplate++rest)=p.networkLen := by
  have hlen := h.ip_length
  have hmin : 20≤p.networkLen := h.ipMin
  have hbyte : (p.ipTemplate++rest).getD 0 0=p.networkHeader.getD 0 0 := by
    rw [getD_eq_getElem?_getD,getElem?_append_left (by rw [h.ipTemplate_length]; omega),
      PacketBuffer.ipTemplate,patch_outside (h.ip_room (h.ipLen_length _ rfl) (by rfl))
      (.inl (by decide)),patch_outside (h.ip_room hlen (by rfl)) (.inl (by decide)),
      getD_eq_getElem?_getD]
  rw [← h.ihl,ipHeaderLength,hbyte,ipHeaderLength]

theorem patch_ipTemplate (v : UInt16) : patch p.ipTemplate ipTotalLenOffset (be16 v) =
    patch (patch p.networkHeader ipTotalLenOffset (be16 v)) ipChecksumOffset [0,0] := by
  have hlen := h.ip_length
  have htwice : patch (patch p.networkHeader ipTotalLenOffset [0,0]) ipTotalLenOffset (be16 v) =
      patch p.networkHeader ipTotalLenOffset (be16 v) :=
    patch_patch (h.ip_room hlen (by rfl)) rfl
  rw [PacketBuffer.ipTemplate,← patch_comm (by change 4≤10; omega)
    (h.ip_room (h.ipLen_length _ rfl) (by rfl)),htwice]

theorem ipBlank_sum (i : Nat) : wordSum (p.ipBlank i)=wordSum p.ipTemplate+
    (UInt16.ofNat (p.networkLen+p.transportLen+(p.chunk i).length)).toNat := by
  have hmin : 20≤p.networkLen := h.ipMin
  have hzero : patch p.ipTemplate ipTotalLenOffset [0,0]=p.ipTemplate := h.patch_ipTemplate 0
  rw [PacketBuffer.ipBlank,← h.patch_ipTemplate,wordSum_patch _ _ (by decide),hzero]
  rw [h.ipTemplate_length]
  change 4≤_
  omega

end Splittable

theorem pseudoHeader_sum {ip : List UInt8} (hmin : 20 ≤ ip.length) (len : Nat) (rest : List UInt8) :
    wordSum (pseudoHeader ip len++rest)=wordSum (ipSourceAddress ip)+
      wordSum (ipDestinationAddress ip)+(UInt16.ofNat len).toNat+tcpProtocolNumber.toNat+
      wordSum rest := by
  have hsrc : (ipSourceAddress ip).length=4 := by
    rw [ipSourceAddress,length_take,length_drop]
    change min 4 (_-12)=4
    omega
  have hdst : (ipDestinationAddress ip).length=4 := by
    rw [ipDestinationAddress,length_take,length_drop]
    change min 4 (_-16)=4
    omega
  have hlen : wordSum (be16 (UInt16.ofNat len)++rest)=(UInt16.ofNat len).toNat+wordSum rest := by
    rw [wordSum_append rest (by simp [be16]),wordSum_be16]
  have hproto : wordSum ([0,tcpProtocolNumber]++(be16 (UInt16.ofNat len)++rest)) =
      tcpProtocolNumber.toNat+((UInt16.ofNat len).toNat+wordSum rest) := by
    rw [← hlen,cons_append,cons_append,nil_append,wordSum,UInt8.toNat_zero,zero_mul,zero_add]
  rw [pseudoHeader,append_assoc,append_assoc,append_assoc,
    wordSum_append _ (by rw [hsrc]),wordSum_append _ (by rw [hdst]),hproto]
  omega

/-! The segmenter -/

namespace Segmenter

structure Ready (p : PacketBuffer) (i : Nat) (s : Segmenter) : Prop where
  size : s.tmpl.length=maxHeaderTemplate
  tmpl : s.tmpl.take s.hdrLen=p.linkHeader++(p.ipTemplate++p.transportHeader)
  hdrLen : s.hdrLen=p.linkLen+p.networkLen+p.transportLen
  linkLen : s.linkLen=p.linkLen
  ipLen : s.ipLen=p.networkLen
  tcpLen : s.tcpLen=p.transportLen
  mss : s.mss=p.gso.mss.toNat
  left : s.left=p.data.length-i*p.gso.mss.toNat
  seg : s.seg=i
  nseg : s.nseg=segments p
  seq0 : s.seq0=get32 p.transportHeader tcpSeqOffset
  flags : s.flags=p.transportHeader.getD tcpFlagsOffset 0
  src : s.src=ipSourceAddress p.networkHeader
  dst : s.dst=ipDestinationAddress p.networkHeader
  cur : s.cur.remaining=p.data.drop (i*p.gso.mss.toNat)
  base : s.ipCsumBase.toNat=ones (wordSum p.ipTemplate)

theorem copy_eq (h : xs.length≤b.length) : copy b xs=xs++b.drop xs.length := by
  rw [copy,take_of_length_le h,patch_front]

theorem ready_init (h : Splittable p) (hs : s.tmpl.length=maxHeaderTemplate) :
    ∃ s', s.init p p.linkLen=some s' ∧ s'.Ready p 0 := by
  have hlink := h.link_length
  have hip := h.ip_length
  have htcp := h.tcp_length
  have hlm : p.linkLen≤18 := h.link
  have hi1 : 20≤p.networkLen := h.ipMin
  have hi2 : p.networkLen≤60 := h.ipMax
  have ht1 : 20≤p.transportLen := h.tcpMin
  have ht2 : p.transportLen≤60 := h.tcpMax
  have hsize : s.tmpl.length=138 := hs
  have hzip := h.ipTemplate_length
  have hall : p.linkHeader.take p.linkLen=p.linkHeader := take_of_length_le (by omega)
  obtain ⟨rest,hrest⟩ : ∃ rest, rest=p.transportHeader++
      s.tmpl.drop (p.linkHeader++(p.networkHeader++p.transportHeader)).length := ⟨_,rfl⟩
  have hcopy : copy s.tmpl (p.linkHeader.take p.linkLen++p.networkHeader++p.transportHeader) =
      p.linkHeader++(p.networkHeader++rest) := by
    rw [hall,append_assoc,copy_eq (by simp only [length_append]; omega),
      append_assoc,append_assoc,hrest]
  have hrestlen : rest.length=138-(p.linkLen+p.networkLen) := by
    rw [hrest]
    simp only [length_append,length_drop]
    omega
  have hfirst : put (p.linkHeader++(p.networkHeader++rest)) (p.linkLen+ipTotalLenOffset) [0,0] =
      some (p.linkHeader++(patch p.networkHeader ipTotalLenOffset [0,0]++rest)) :=
    put_second hlink (h.ip_room hip (by rfl))
  have hsecond : put (p.linkHeader++(patch p.networkHeader ipTotalLenOffset [0,0]++rest))
      (p.linkLen+ipChecksumOffset) [0,0]=some (p.linkHeader++(p.ipTemplate++rest)) :=
    put_second hlink (h.ip_room (h.ipLen_length _ rfl) (by rfl))
  have htip : (p.linkHeader++(p.ipTemplate++rest)).drop p.linkLen=p.ipTemplate++rest :=
    drop_left' hlink
  have hihl := h.ipHeaderLength_template rest
  have hsum : (p.ipTemplate++rest).take p.networkLen=p.ipTemplate := take_left' hzip
  have hguard : ¬ (p.linkHeader.length<p.linkLen ∨ p.networkHeader.length < ipMinimumSize ∨
      p.transportHeader.length≤tcpFlagsOffset) := by
    change ¬ (_ ∨ _<20 ∨ _≤13)
    omega
  have hroom : ¬ (p.linkHeader++(p.networkHeader++rest)).length <
      p.linkLen+p.networkHeader.length := by
    simp only [length_append]
    omega
  have hfit : ¬ (p.ipTemplate++rest).length<p.networkLen := by
    simp only [length_append]
    omega
  simp only [init,hguard,if_false,hcopy,hroom,hfirst,hsecond,bind_eq_bind,
    bind_some,htip,hihl,hfit,hsum]
  refine ⟨_,rfl,?_⟩
  constructor
  case size =>
    simp only [length_append]
    omega
  case tmpl =>
    have hhdr : (p.linkHeader++(p.ipTemplate++p.transportHeader)).length =
        p.linkLen+p.networkHeader.length+p.transportHeader.length := by
      simp only [length_append]
      omega
    rw [← hhdr,hrest]
    simp only [← append_assoc]
    exact take_left
  case hdrLen => rw [hip,htcp]
  case cur =>
    rw [Nat.zero_mul,drop_zero]
    exact PayloadCursor.new_remaining p
  case base => rw [checksum_toNat,UInt16.toNat_zero,Nat.zero_add]
  case left => rw [Nat.zero_mul,Nat.sub_zero]
  all_goals first | rfl | assumption

section
variable {s : Segmenter} {p : PacketBuffer} {i : Nat} (h : Splittable p) (hr : s.Ready p i)
include h hr

theorem Ready.setIPLength (rest : List UInt8) : s.setIPLength (p.linkHeader++(p.ipTemplate++rest))
      (p.networkLen+p.transportLen+(p.chunk i).length) =
      some (p.linkHeader++(p.ipSegment i++rest)) := by
  have hlink := h.link_length
  have hzip := h.ipTemplate_length
  obtain ⟨v,hv⟩ : ∃ v, v=UInt16.ofNat (p.networkLen+p.transportLen+(p.chunk i).length) := ⟨_,rfl⟩
  have hblank : patch p.ipTemplate ipTotalLenOffset (be16 v)=p.ipBlank i := by
    rw [h.patch_ipTemplate,hv]
    rfl
  have hfirst : put (p.linkHeader++(p.ipTemplate++rest)) (p.linkLen+ipTotalLenOffset) (be16 v) =
      some (p.linkHeader++(p.ipBlank i++rest)) := by
    rw [put_second hlink (h.ip_room hzip (by rfl)),hblank]
  have hsum : ~~~combine s.ipCsumBase v=internetChecksum (p.ipBlank i) := by
    refine internetChecksum_eq ?_
    rw [combine_toNat,hr.base,ones_add_ones,h.ipBlank_sum,hv]
  have hblanklen : (p.ipBlank i).length=p.networkLen := by
    rw [← hblank,patch_length (h.ip_room hzip (by rfl)),hzip]
  simp only [Segmenter.setIPLength,hr.linkLen,← hv,hfirst,hsum,bind_eq_bind,bind_some]
  rw [put_second hlink (h.ip_room hblanklen (by rfl))]
  rfl

omit h in
theorem Ready.copyTo : ∃ cur, PayloadCursor.copyTo s.cur.views s.cur.off (min s.mss s.left) =
    (p.chunk i,cur) ∧ cur.remaining=p.data.drop ((i+1)*p.gso.mss.toNat) := by
  obtain ⟨hbytes,hrest⟩ := PayloadCursor.copyTo_eq s.cur.views s.cur.off (min s.mss s.left)
  refine ⟨_,Prod.ext ?_ rfl,?_⟩
  · rw [hbytes,hr.cur,hr.mss,hr.left,PacketBuffer.chunk,← length_drop,← take_take,take_length]
  · rw [hrest,hr.cur,hr.mss,hr.left,drop_drop,add_mul,one_mul]
    cases le_total p.gso.mss.toNat (p.data.length-i*p.gso.mss.toNat) with
    | inl hle => rw [min_eq_left hle]
    | inr hle => rw [drop_eq_nil_of_le (by omega),drop_eq_nil_of_le (by omega)]

theorem Ready.tcpSum : ~~~checksum (p.tcpBlank i++p.chunk i)
    (pseudoHeaderChecksum tcpProtocolNumber s.src s.dst
      (UInt16.ofNat (p.transportLen+(p.chunk i).length)))=internetChecksum
      (pseudoHeader p.networkHeader (p.transportLen+(p.chunk i).length)++
        (p.tcpBlank i++p.chunk i)) := by
  refine internetChecksum_eq ?_
  rw [checksum_toNat,pseudoHeaderChecksum_toNat,ones_add_ones,hr.src,hr.dst,
    pseudoHeader_sum (h.ip_length ▸ h.ipMin)]

theorem Ready.headers (hroom : p.headerSize≤frame.length) :
    ∃ tcp, s.headers frame (p.chunk i).length =
        some (p.linkHeader++(p.ipSegment i++(tcp++frame.drop p.headerSize))) ∧
      tcp.length=p.transportLen ∧ patch tcp tcpChecksumOffset [0,0]=p.tcpBlank i := by
  have hlink := h.link_length
  have hzip := h.ipTemplate_length
  have hips := h.ipSegment_length i
  have htcp := h.tcp_length
  have hsize : (p.linkHeader++(p.ipTemplate++p.transportHeader)).length=p.headerSize := by
    simp only [length_append,PacketBuffer.headerSize]
    omega
  have hcopy : copy frame (s.tmpl.take s.hdrLen) =
      p.linkHeader++(p.ipTemplate++(p.transportHeader++frame.drop p.headerSize)) := by
    rw [hr.tmpl,copy_eq (by omega),hsize,append_assoc,append_assoc]
  have hip (rest : List UInt8) : s.setIPLength (p.linkHeader++(p.ipTemplate++rest))
      (s.ipLen+s.tcpLen+(p.chunk i).length)=some (p.linkHeader++(p.ipSegment i++rest)) := by
    rw [hr.ipLen,hr.tcpLen,hr.setIPLength h]
  obtain ⟨tcp,htcp'⟩ : ∃ t, t=patch p.transportHeader tcpSeqOffset
      (be32 (get32 p.transportHeader tcpSeqOffset+UInt32.ofNat (i*p.gso.mss.toNat))) := ⟨_,rfl⟩
  have hlen : tcp.length=p.transportLen := by rw [htcp',h.tcpSeq_length]
  have hseq (rest : List UInt8) : put (p.linkHeader++(p.ipSegment i++(p.transportHeader++rest)))
      (s.linkLen+s.ipLen+tcpSeqOffset) (be32 (s.seq0+UInt32.ofNat (s.seg*s.mss))) =
      some (p.linkHeader++(p.ipSegment i++(tcp++rest))) := by
    rw [hr.linkLen,hr.ipLen,hr.seq0,hr.seg,hr.mss,
      put_third hlink hips (h.tcp_room htcp (by rfl)),htcp']
  have hflags (rest : List UInt8) : put (p.linkHeader++(p.ipSegment i++(tcp++rest)))
      (s.linkLen+s.ipLen+tcpFlagsOffset) [s.nextFlags] =
      some (p.linkHeader++(p.ipSegment i++(patch tcp tcpFlagsOffset
        [p.segmentFlags i]++rest))) := by
    rw [hr.linkLen,hr.ipLen,nextFlags,hr.seg,hr.nseg,hr.flags,
      put_third hlink hips (h.tcp_room hlen (by rfl))]
    rfl
  have htmpl : ¬ s.tmpl.length<s.hdrLen := by
    have hl : p.linkLen≤18 := h.link
    have hi2 : p.networkLen≤60 := h.ipMax
    have ht2 : p.transportLen≤60 := h.tcpMax
    rw [hr.size,hr.hdrLen]
    change ¬ 138 < _
    omega
  refine ⟨patch tcp tcpFlagsOffset [p.segmentFlags i],?_,?_,by rw [htcp']; rfl⟩
  · simp only [Segmenter.headers,htmpl,if_false,hcopy,hip,hseq,hflags,bind_eq_bind,bind_some]
  · rw [patch_length (h.tcp_room hlen (by rfl)),hlen]

theorem Ready.finish {tcp : List UInt8} (htcp : tcp.length=p.transportLen)
    (hblank : patch tcp tcpChecksumOffset [0,0]=p.tcpBlank i) (rest : List UInt8) :
    s.finish (p.linkHeader++(p.ipSegment i++(tcp++(p.chunk i++rest)))) (p.chunk i).length =
      some (p.linkHeader++(p.ipSegment i++(p.tcpSegment i++(p.chunk i++rest)))) := by
  have hlink := h.link_length
  have hips := h.ipSegment_length i
  have hbl := h.tcpBlank_length i
  have hzero : put (p.linkHeader++(p.ipSegment i++(tcp++(p.chunk i++rest))))
      (s.linkLen+s.ipLen+tcpChecksumOffset) [0,0] =
      some (p.linkHeader++(p.ipSegment i++(p.tcpBlank i++(p.chunk i++rest)))) := by
    rw [hr.linkLen,hr.ipLen,put_third hlink hips (h.tcp_room htcp (by rfl)),hblank]
  have hbytes : ((p.linkHeader++(p.ipSegment i++(p.tcpBlank i++(p.chunk i++rest)))).take
      (s.hdrLen+(p.chunk i).length)).drop (s.linkLen+s.ipLen)=p.tcpBlank i++p.chunk i := by
    have hfront : (p.linkHeader++p.ipSegment i).length=p.linkLen+p.networkLen := by
      rw [length_append,hlink,hips]
    have hparts : p.linkHeader++(p.ipSegment i++(p.tcpBlank i++(p.chunk i++rest))) =
        p.linkHeader++p.ipSegment i++(p.tcpBlank i++p.chunk i)++rest := by
      simp only [append_assoc]
    rw [hr.hdrLen,hr.linkLen,hr.ipLen,hparts,take_left',drop_left' hfront]
    rw [length_append,hfront,length_append,hbl]
    omega
  have hsum := hr.tcpSum h
  simp only [Segmenter.finish,hzero,hbytes,hr.tcpLen,hsum,bind_eq_bind,bind_some]
  rw [hr.linkLen,hr.ipLen,put_third hlink hips (h.tcp_room hbl (by rfl))]
  rfl

theorem Ready.next (hmin : minFrameLen≤frame.length)
    (hroom : p.headerSize+(p.chunk i).length≤frame.length) :
    ∃ s' frame' len, s.next frame=some (s',frame',len) ∧ frame'.take len=p.wireFrame i ∧
      s'.Ready p (i+1) := by
  have hlink := h.link_length
  have hips := h.ipSegment_length i
  have htcps := h.tcpSegment_length i
  have hn : min s.mss s.left=(p.chunk i).length := by rw [hr.mss,hr.left,p.chunk_length]
  have hfront : p.headerSize≤frame.length := by omega
  obtain ⟨tcp,hhdr,htcp,hblank⟩ := hr.headers h hfront
  obtain ⟨cur,hcur,hrem⟩ := hr.copyTo
  rw [hn] at hcur
  have hlen : (p.linkHeader++(p.ipSegment i++(tcp++frame.drop p.headerSize))).length =
      frame.length := by
    simp only [length_append,length_drop,hlink,hips,htcp,PacketBuffer.headerSize]
    simp only [PacketBuffer.headerSize] at hroom
    omega
  obtain ⟨rest,hrest⟩ : ∃ rest, rest=(frame.drop p.headerSize).drop (p.chunk i).length := ⟨_,rfl⟩
  have hpay : put (p.linkHeader++(p.ipSegment i++(tcp++frame.drop p.headerSize))) s.hdrLen
      (p.chunk i)=some (p.linkHeader++(p.ipSegment i++(tcp++(p.chunk i++rest)))) := by
    rw [hr.hdrLen,put_fourth hlink hips htcp (by rw [length_drop]; omega),hrest]
  have hfin := hr.finish h htcp hblank rest
  obtain ⟨wire,hwire⟩ : ∃ wire,
      wire=p.linkHeader++(p.ipSegment i++(p.tcpSegment i++p.chunk i)) := ⟨_,rfl⟩
  have hparts : p.linkHeader++(p.ipSegment i++(p.tcpSegment i++(p.chunk i++rest)))=wire++rest := by
    rw [hwire]
    simp
  have htotal : s.hdrLen+(p.chunk i).length=wire.length := by
    rw [hr.hdrLen,hwire]
    simp only [length_append,hlink,hips,htcps]
    omega
  have hrestlen : wire.length+rest.length=frame.length := by
    rw [← htotal,hr.hdrLen,hrest,length_drop,length_drop]
    simp only [PacketBuffer.headerSize] at hroom ⊢
    omega
  have hfits : ¬ frame.length<wire.length := by omega
  have hready : Ready p (i+1)
      { s with cur, left := s.left-(p.chunk i).length, seg := s.seg+1 } := by
    refine { hr with left := ?_, seg := ?_, cur := hrem }
    · change s.left-(p.chunk i).length=_
      rw [hr.left,p.chunk_length,add_mul]
      omega
    · rw [hr.seg]
  simp only [Segmenter.next,hn,hhdr,hlen,hfits,if_false,hcur,hpay,hfin,ne_eq,
    not_true_eq_false,bind_eq_bind,bind_some,hparts,htotal]
  split
  case isFalse hge =>
    refine ⟨_,_,_,rfl,?_,hready⟩
    rw [take_left,PacketBuffer.wireFrame,← hwire,Nat.sub_eq_zero_of_le (by omega),
      replicate_zero,append_nil]
  rename_i hlt
  have hpad : put (wire++rest) wire.length (replicate (minFrameLen-wire.length) 0) =
      some (wire++(replicate (minFrameLen-wire.length) 0++
        rest.drop (minFrameLen-wire.length))) := by
    have hput : put (wire++rest) (wire.length+0) (replicate (minFrameLen-wire.length) 0) =
        some (wire++patch rest 0 (replicate (minFrameLen-wire.length) 0)) :=
      put_behind rfl (by rw [length_replicate]; omega)
    rwa [patch_front,length_replicate,add_zero] at hput
  rw [hpad,bind_some]
  refine ⟨_,_,_,rfl,?_,hready⟩
  rw [PacketBuffer.wireFrame,← hwire,← append_assoc]
  refine take_left' ?_
  rw [length_append,length_replicate]
  omega

end

theorem Ready.emit (h : Splittable p) {frames : List (List UInt8)}
    {i : Nat} (hr : s.Ready p i) (hi : i ≤ segments p) (hcount : segments p ≤ i+frames.length)
    (hroom : ∀ frame∈frames, minFrameLen≤frame.length ∧
      p.headerSize+min p.gso.mss.toNat p.data.length≤frame.length) : ∃ s', s.emit frames =
      some (s',(List.range' i (segments p-i)).map p.wireFrame) ∧ s'.Ready p (segments p) := by
  induction frames generalizing s i with
  | nil =>
    have heq : i=segments p := by
      rw [length_nil] at hcount
      omega
    subst heq
    exact ⟨s,by rw [Segmenter.emit,Nat.sub_self]; rfl,hr⟩
  | cons frame frames ih =>
    rw [Segmenter.emit,done,hr.seg,hr.nseg]
    by_cases hlt : i<segments p
    · have hframe := hroom frame (by simp)
      have hchunk := p.chunk_length i
      obtain ⟨s₁,frame1,len,hnext,hwire,hr1⟩ := hr.next h hframe.1 (by omega)
      obtain ⟨s2,hrest,hr2⟩ := ih hr1 hlt (by rw [length_cons] at hcount; omega)
        fun f hf => hroom f (by simp [hf])
      refine ⟨s2,?_,hr2⟩
      have hrange : segments p-i=segments p-(i+1)+1 := by omega
      simp only [not_le.mpr hlt,decide_false,Bool.false_eq_true,if_false,hnext,hrest,hwire,
        bind_eq_bind,bind_some]
      rw [hrange,range'_succ,map_cons]
    · have heq : i=segments p := by omega
      subst heq
      refine ⟨s,?_,hr⟩
      simp

end Segmenter

/-- Segmentation is exact: whatever an earlier packet left behind in the segmenter and whatever
the frames hold, each as long as one segment. -/
theorem segmenter_exact {p : PacketBuffer} (h : Splittable p) (s : Segmenter)
    (hs : s.tmpl.length = maxHeaderTemplate) (frames : List (List UInt8))
    (hcount : segments p ≤ frames.length) (hroom : ∀ frame ∈ frames, minFrameLen ≤ frame.length ∧
      p.headerSize+min p.gso.mss.toNat p.data.length ≤ frame.length) :
    ∃ s₀ s₁ sent, s.init p p.linkLen = some s₀ ∧ s₀.emit frames = some (s₁,sent) ∧
      s₁.done = true ∧ Exact p sent := by
  obtain ⟨s₀,hinit,hr0⟩ := Segmenter.ready_init h hs
  obtain ⟨s₁,hemit,hr1⟩ := hr0.emit h (Nat.zero_le _) (by omega) hroom
  refine ⟨s₀,s₁,_,hinit,hemit,?_,?_⟩
  · rw [Segmenter.done,hr1.seg,hr1.nseg]
    exact decide_eq_true (le_refl _)
  · rw [Nat.sub_zero,← range_eq_range']
    constructor
    case count => rw [length_map,length_range]
    case payload =>
      have hpay : p.payloadOf ∘ p.wireFrame=p.chunk := funext fun i => h.wire_payload i
      rw [List.map_map,hpay,Splittable.chunks_flatten,take_of_length_le h.covered]
    case each =>
      intro i frame hi
      rw [getElem?_map] at hi
      obtain ⟨k,hk,rfl⟩ := map_eq_some_iff.mp hi
      obtain ⟨hlt,rfl⟩ := List.getElem?_eq_some_iff.mp hk
      rw [length_range] at hlt
      rw [getElem_range]
      exact h.wire_isSegment hlt

def fiveBytes : PacketBuffer where
  views := [[0,0]++List.replicate 12 0xaa++[8,0,
      0x45,0,0,45,0,1,0x40,0,64,6,0x12,0x34,10,0,0,1,10,0,0,2,
      0,80,0x1f,0x90,0xff,0xff,0xff,0xff,0,0,0,9,0x50,0x19,1,0,0x56,0x78,0,0],
    [1],[],[2,3,4,5]]
  headerOffset := 2
  linkLen := 14
  networkLen := 20
  transportLen := 20
  gso := ⟨true,2,true⟩
  isIPv4 := true
  isTCP := true

theorem fiveBytes_splittable : Splittable fiveBytes := by constructor <;> decide

theorem segmenter_exact_fiveBytes : segments fiveBytes = 3 ∧
    ∃ s₀ s₁ sent, Segmenter.zero.init fiveBytes 14 = some s₀ ∧
      s₀.emit (List.replicate 3 (List.replicate 64 0xff)) = some (s₁,sent) ∧
      s₁.done = true ∧ Exact fiveBytes sent :=
  ⟨by decide,segmenter_exact fiveBytes_splittable Segmenter.zero length_replicate
    (replicate 3 (replicate 64 0xff)) (by decide) (by decide)⟩

end Packetio.Netstack
