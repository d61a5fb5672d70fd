import Cosiris.Net.Accept

/-!
# Echo replies

`icmpv4_echo_reply` answers in the buffer of the request. Both checksums of ICMP are taken over
the length of the packet without 20 bytes, as if the IP header had no options, and the checksum of
the IP header over the length that `iphlen` gives. The reply to a request is right, and a request
whose checksum is wrong gets none, exactly when the bytes behind the packet that are summed in
addition, and the last 32 bytes of a header of more, make no difference (`echo_reply_iff`). -/

namespace Cosiris.Net

open Prog Ones

/-- The total length that the IP header of a frame states. -/
def ipLen (d : ℕ → UInt8) : ℕ := ntoh 2 (getLe d 16 2)

/-- The length of the message behind the IP header. -/
def messageLen (d : ℕ → UInt8) : ℕ := ipLen d - ihl d * 4

/-- An echo request that an interface accepts: its identifier and sequence number are there, and
the packet lies in the frame. -/
structure EchoRequest (netif : Netif) (size : ℕ) (d : ℕ → UInt8) : Prop where
  accepted : IpAccepted netif d
  proto : getLe d 23 1 = 1
  type : getLe d (ipEnd d) 1 = 8
  message : ihl d * 4 + 8 ≤ ipLen d
  inFrame : 14 + ipLen d ≤ size

/-- A checksum as it stands in a header, for the bytes with 0 in its place. -/
def checksum (l : List UInt8) : List UInt8 := be 2 (65535 - reduce (wordsBe l))

/-- The IP header of the reply, with a checksum: the addresses are exchanged. -/
def replyHeader (d : ℕ → UInt8) (csum : List UInt8) : List UInt8 :=
  getBytes d 14 8 ++
    ([64, d 23] ++
      (csum ++ (getBytes d 30 4 ++ (getBytes d 26 4 ++ getBytes d 34 (ihl d * 4 - 20)))))

/-- The first `n` bytes of the ICMP message of the reply, with a checksum. -/
def replyMessage (d : ℕ → UInt8) (n : ℕ) (csum : List UInt8) : List UInt8 :=
  [0, 0] ++ (csum ++ getBytes d (ipEnd d + 4) (n - 4))

/-- The reply, with two checksums. What comes behind the packet is sent back as it is. -/
def replyFrame (netif : Netif) (size : ℕ) (d : ℕ → UInt8)
  (ipCsum icmpCsum : List UInt8) : List UInt8 :=
  getBytes d 6 6 ++ (netif.mac ++ (getBytes d 12 2 ++ (replyHeader d ipCsum ++
    (replyMessage d (messageLen d) icmpCsum ++ getBytes d (14 + ipLen d) (size - (14 + ipLen d))))))

/-- The reply that a request is to get. -/
def reply (netif : Netif) (size : ℕ) (d : ℕ → UInt8) : List UInt8 :=
  replyFrame netif size d (checksum (replyHeader d [0, 0]))
    (checksum (replyMessage d (messageLen d) [0, 0]))

/-- The ICMP message of a request verifies. -/
def Intact (d : ℕ → UInt8) : Prop := Verifies (getBytes d (ipEnd d) (messageLen d))

instance (d : ℕ → UInt8) : Decidable (Intact d) := inferInstanceAs (Decidable (Verifies _))

/-- `ip_process` sends the reply to a request that is intact, and nothing for another. -/
def Answered (s : Rx) : Prop :=
  wp ipProcess (fun _ t => t.net.sent = s.net.sent ++
    if Intact s.buf.data then [reply (s.net.netifs s.buf.nic) s.buf.size s.buf.data] else [])
      (fun _ _ => False) s

/-- The bytes that the code takes the checksums over give the same as the right ones: `icmpLen` is
the length that it takes the message to have. -/
structure SameChecksums (d : ℕ → UInt8) : Prop where
  request : Intact d ↔ Verifies (getBytes d (ipEnd d) (icmpLen d))
  header : Intact d →
      checksum ((replyHeader d [0, 0]).take (ihl d % 8 * 4)) = checksum (replyHeader d [0, 0])
  message : Intact d →
      checksum (replyMessage d (icmpLen d) [0, 0]) = checksum (replyMessage d (messageLen d) [0, 0])

/-- What the code sums besides the message: as many bytes behind the packet as the header has
options. Behind a message that ends within a word, the first of them ends that word. -/
def bytesBehind (d : ℕ → UInt8) : List UInt8 :=
  List.replicate (messageLen d % 2) 0 ++ getBytes d (14 + ipLen d) (ihl d * 4 - 20)

/-- The sums that make no difference. For an intact request, the bytes behind the packet sum up to
a multiple of 2¹⁶ - 1, and to 0 behind a reply of 0 bytes only; so do the last 32 bytes of a header
of more, which the code leaves out of the reply's checksum. For another, the bytes behind the
packet do not make up for the message. -/
structure SameSums (d : ℕ → UInt8) : Prop where
  intact : Intact d → wordsBe (bytesBehind d) % 65535 = 0
  empty : Intact d → wordsBe (replyMessage d (messageLen d) [0, 0]) = 0 →
      wordsBe (bytesBehind d) = 0
  header : Intact d → 9 ≤ ihl d →
    wordsBe ((replyHeader d [0, 0]).drop ((ihl d - 8) * 4)) % 65535 = 0
  corrupt : ¬Intact d →
    (wordsBe (getBytes d (ipEnd d) (messageLen d)) + wordsBe (bytesBehind d)) % 65535 ≠ 0

/-! ### Checksums in place -/

theorem verifies_iff_wordsLe {l : List UInt8} : Verifies l ↔ reduce (wordsLe l) = 65535 := by
  have hlt := reduce_lt (wordsBe l)
  rw [reduce_wordsLe, Verifies, swap16]
  omega

theorem wordsLe_checksum (l : List UInt8) : wordsLe (checksum l) = 65535 - reduce (wordsLe l) := by
  have hlt := reduce_lt (wordsBe l)
  rw [checksum, wordsLe_be_two, ntoh_two (by omega), swap16_compl hlt, reduce_wordsLe]

/-- Bytes with their checksum among them verify. -/
theorem verifies_checksum {l : List UInt8} (hl : l.length % 2 = 0) (m : List UInt8) :
    Verifies (l ++ (checksum (l ++ ([0, 0] ++ m)) ++ m)) := by
  have hsum : ∀ f : List UInt8, f.length = 2 →
    wordsLe (l ++ (f ++ m)) = wordsLe l + wordsLe m + wordsLe f := by
    intro f hf
    rw [wordsLe_append hl, wordsLe_append (by rw [hf])]
    omega
  have hempty : wordsLe [0, 0] = 0 := rfl
  have hwith := hsum (checksum (l ++ ([0, 0] ++ m))) (length_be _ _)
  rw [wordsLe_checksum, hsum [0, 0] rfl, hempty, Nat.add_zero] at hwith
  rw [verifies_iff_wordsLe, hwith, reduce_add_compl]

/-- Both checksums of the reply verify. -/
theorem reply_verifies (d : ℕ → UInt8) (n : ℕ) :
    Verifies (replyHeader d (checksum (replyHeader d [0, 0]))) ∧
      Verifies (replyMessage d n (checksum (replyMessage d n [0, 0]))) := by
  constructor
  · have h := verifies_checksum (show (getBytes d 14 8 ++ [64, d 23]).length % 2 = 0 by simp)
      (getBytes d 30 4 ++ (getBytes d 26 4 ++ getBytes d 34 (ihl d * 4 - 20)))
    simpa only [replyHeader, List.append_assoc] using h
  · exact verifies_checksum rfl _

/-! ### Pieces of the frame -/

section

variable {d e : ℕ → UInt8} {i j n k v o : ℕ}

/-- What `ip_csum` gives, as it is stored. -/
theorem leBytes_csumOf (hn : n < 2 ^ 16) :
    leBytes 2 (csumOf d i n) = checksum (getBytes d i n) := by
  have hlt := reduce_lt (wordsBe (getBytes d i n))
  have hc : 65535 - reduce (wordsBe (getBytes d i n)) < 2 ^ 16 := by omega
  rw [csumOf_eq hn, reduce_wordsLe, ← swap16_compl hlt, ← ntoh_two hc, leBytes_ntoh, checksum]

theorem length_checksum (l : List UInt8) : (checksum l).length = 2 := length_be _ _

theorem getBytes_take (h : k ≤ n) : (getBytes d i n).take k = getBytes d i k := by
  obtain ⟨m, rfl⟩ := Nat.exists_eq_add_of_le h
  rw [getBytes_add, List.take_left' (length_getBytes _ _ _)]

theorem getBytes_header (d : ℕ → UInt8) (k : ℕ) :
    getBytes d 14 (20 + k) =
      getBytes d 14 8 ++ (getBytes d 22 2 ++ (getBytes d 24 2 ++ (getBytes d 26 4 ++
      (getBytes d 30 4 ++ getBytes d 34 k)))) := by
  rw [← getBytes_add, ← getBytes_add, ← getBytes_add, ← getBytes_add, ← getBytes_add]
  congr 1
  omega

theorem getBytes_message (d : ℕ → UInt8) (o k : ℕ) :
    getBytes d o (4 + k) = getBytes d o 2 ++ (getBytes d (o + 2) 2 ++ getBytes d (o + 4) k) := by
  rw [← getBytes_add, ← getBytes_add]
  congr 1
  omega

end

theorem replyMessage_add (d : ℕ → UInt8) (k : ℕ) (csum : List UInt8) :
    replyMessage d (4 + k) csum = [0, 0] ++ (csum ++ getBytes d (ipEnd d + 4) k) := by
  rw [replyMessage, Nat.add_sub_cancel_left]

/-! ### The memory of the reply -/

/-- The memory when the checksum of the ICMP message is computed. -/
def clearIcmp (o : ℕ) (d : ℕ → UInt8) : ℕ → UInt8 :=
  swapAt 2 (o + 2) (putLe (putLe (putLe d o 1 0) (o + 2) 2 0) (o + 1) 1 0)

/-- The memory with the ICMP message of the reply. -/
def echoIcmpAt (o : ℕ) (d : ℕ → UInt8) : ℕ → UInt8 :=
  putLe (clearIcmp o d) (o + 2) 2 (csumOf (clearIcmp o d) o (getLe (clearIcmp o d) 16 2 - 20))

/-- The memory with the addresses exchanged, and the rest of the IP header set. -/
def exchangeIp (d : ℕ → UInt8) : ℕ → UInt8 :=
  putLe (putLe (putLe (putLe d 30 4 (getLe d 26 4)) 26 4 (getLe d 30 4)) 22 1 64) 24 2 0

/-- The memory after `echoIp`. -/
def echoIpAt (d : ℕ → UInt8) : ℕ → UInt8 :=
  putLe (wireIp (exchangeIp d)) 24 2
    (csumOf (wireIp (exchangeIp d)) 14 (getLe (wireIp (exchangeIp d)) 14 1 % 8 * 4))

/-- The memory after `echoEth`. -/
def echoEthAt (mac : List UInt8) (d : ℕ → UInt8) : ℕ → UInt8 :=
  swapAt 2 12 (putBytes (putBytes d 0 (getBytes d 6 6)) 6 mac)

section

variable {s : Rx} {d : ℕ → UInt8} {r o i n : ℕ} {E : Empty → Rx → Prop}

@[simp] theorem wp_rdBytes {Q : List UInt8 → Rx → Prop} :
    wp (rdBytes n i) Q E (s.at d r) = Q (getBytes d i n) (s.at d (max r (i + n))) := (rfl)

theorem wp_echoIp : wp echoIp (fun _ t => ∃ r', t = s.at (echoIpAt d) r') E (s.at d r) := by
  simp only [echoIp, iphlen, wp_bind, wp_rd, wp_wr, wp_ipv42buf, wp_ipCsum, wp_pure]
  exact ⟨_, rfl⟩

theorem wp_echoEth :
    wp echoEth (fun _ t => ∃ r', t = s.at (echoEthAt (s.net.netifs s.buf.nic).mac d) r') E
      (s.at d r) := by
  simp only [echoEth, eth2buf, memcpy, wp_bind, wp_netif, wp_rdBytes, wp_wrBytes, wp_swap]
  exact ⟨_, rfl⟩

/-- **`icmpv4_echo_reply`**: the frame that it sends. -/
theorem wp_icmpv4EchoReply (ho : 14 + getLe d 14 1 / 16 * 4 = o) :
    wp icmpv4EchoReply (fun _ t => t.net.sent = s.net.sent ++
      [getBytes (echoEthAt (s.net.netifs s.buf.nic).mac (echoIpAt (echoIcmpAt o d))) 0 s.buf.size])
      E (s.at d r) := by
  simp only [icmpv4EchoReply, icmpv42buf, wp_bind, wp_ipData, ho, wp_wr, wp_swap, wp_rd, wp_ipCsum,
    wp_read]
  refine wp_echoIp.mono (fun _ t ht => ?_) fun _ _ => id
  obtain ⟨r, rfl⟩ := ht
  refine wp_echoEth.mono (fun _ t ht => ?_) fun _ _ => id
  obtain ⟨r, rfl⟩ := ht
  exact wp_send fun t ht => ht

end

/-! ### What the reply holds -/

section

variable {d e : ℕ → UInt8} {mac : List UInt8} {i n k o : ℕ}

theorem getBytes_clearIcmp_disjoint (h : i + n ≤ o ∨ o + 4 ≤ i) :
    getBytes (clearIcmp o d) i n = getBytes d i n := by
  simp (disch := omega) only [clearIcmp, getBytes_swapAt_disjoint, getBytes_putLe_disjoint]

theorem getBytes_clearIcmp_type : getBytes (clearIcmp o d) o 2 = [0, 0] := by
  have hsplit : getBytes (clearIcmp o d) o (1 + 1) =
    getBytes (clearIcmp o d) o 1 ++ getBytes (clearIcmp o d) (o + 1) 1 :=
    getBytes_add _ _ _ _
  rw [hsplit]
  simp (disch := omega) only [clearIcmp, getBytes_swapAt_disjoint, getBytes_putLe_disjoint,
    getBytes_putLe]
  rfl

theorem getBytes_clearIcmp_csum : getBytes (clearIcmp o d) (o + 2) 2 = [0, 0] := by
  simp (disch := omega) only [clearIcmp, getBytes_swapAt, getLe_putLe_disjoint, getLe_putLe]
  rfl

/-- The message when its checksum is computed. -/
theorem getBytes_clearIcmp (hd : ∀ k, getBytes d (ipEnd e + 4) k = getBytes e (ipEnd e + 4) k)
    (hn : 4 ≤ n) :
    getBytes (clearIcmp (ipEnd e) d) (ipEnd e) n = replyMessage e n [0, 0] := by
  obtain ⟨k, rfl⟩ := Nat.exists_eq_add_of_le hn
  rw [getBytes_message, getBytes_clearIcmp_type, getBytes_clearIcmp_csum,
    getBytes_clearIcmp_disjoint (Or.inr le_rfl), hd, replyMessage_add]

theorem getBytes_echoIcmpAt_disjoint (h : i + n ≤ o ∨ o + 4 ≤ i) :
    getBytes (echoIcmpAt o d) i n = getBytes d i n := by
  rw [echoIcmpAt, getBytes_putLe_disjoint (by omega), getBytes_clearIcmp_disjoint h]

/-- The message as it is sent. -/
theorem getBytes_echoIcmpAt (hd : ∀ k, getBytes d (ipEnd e + 4) k = getBytes e (ipEnd e + 4) k)
    (hlen : getLe d 16 2 - 20 = icmpLen e) (ho : 34 ≤ ipEnd e) (h4 : 4 ≤ icmpLen e) (hn : 4 ≤ n) :
    getBytes (echoIcmpAt (ipEnd e) d) (ipEnd e) n =
      replyMessage e n (checksum (replyMessage e (icmpLen e) [0, 0])) := by
  have hlt : icmpLen e < 2 ^ 16 := by
    have := ntoh_lt 2 (getLe e 16 2)
    unfold icmpLen
    omega
  have hlen' : getLe (clearIcmp (ipEnd e) d) 16 2 - 20 = icmpLen e := by
    rw [getLe, getBytes_clearIcmp_disjoint (by omega), ← getLe, hlen]
  obtain ⟨k, rfl⟩ := Nat.exists_eq_add_of_le hn
  rw [getBytes_message, getBytes_echoIcmpAt_disjoint (Or.inr le_rfl), hd, echoIcmpAt,
    getBytes_putLe, hlen', getBytes_putLe_disjoint (Or.inl le_rfl), getBytes_clearIcmp_type,
    leBytes_csumOf hlt,
      getBytes_clearIcmp hd h4,
    replyMessage_add]

theorem getLe_hostIp_tos : getLe (hostIp d) 15 1 = getLe d 15 1 := by
  simp (disch := decide) only [hostIp, swapIpv4At, hostFragAt, swapIhlAt, getLe_swapAt_disjoint,
    getLe_putLe_disjoint]

theorem getLe_hostIp_id : getLe (hostIp d) 18 2 = ntoh 2 (getLe d 18 2) := by
  simp (disch := decide) only [hostIp, swapIpv4At, hostFragAt, swapIhlAt, getLe_swapAt_disjoint,
    getLe_putLe_disjoint, getLe_swapAt]

theorem getLe_hostIp_frag : getLe (hostIp d) 20 2 =
    (ntoh 2 (getLe d 20 2) / 2 ^ 13 % 8 + ntoh 2 (getLe d 20 2) % 2 ^ 13 * 8) % 256 ^ 2 := by
  simp (disch := decide) only [hostIp, swapIpv4At, hostFragAt, swapIhlAt, getLe_swapAt_disjoint,
    getLe_putLe_disjoint, getLe_putLe]

/-- The flags and the fragment offset, from the wire and back. -/
theorem fragments_round_trip {v : ℕ} (h : v < 256 ^ 2) :
    ((v / 2 ^ 13 % 8 + v % 2 ^ 13 * 8) % 256 ^ 2 % 8 * 2 ^ 13 +
      (v / 2 ^ 13 % 8 + v % 2 ^ 13 * 8) % 256 ^ 2 / 8) % 2 ^ 16 = v := by
  have hflags : v / 2 ^ 13 % 8 = v / 2 ^ 13 := Nat.mod_eq_of_lt (by omega)
  have hword : (v / 2 ^ 13 + v % 2 ^ 13 * 8) % 256 ^ 2 = v / 2 ^ 13 + v % 2 ^ 13 * 8 :=
    Nat.mod_eq_of_lt (by omega)
  have hlow : (v / 2 ^ 13 + v % 2 ^ 13 * 8) % 8 = v / 2 ^ 13 := by omega
  have hhigh : (v / 2 ^ 13 + v % 2 ^ 13 * 8) / 8 = v % 2 ^ 13 := by omega
  rw [hflags, hword, hlow, hhigh]
  omega

/-- The start of the header is converted back to what it was. -/
theorem getBytes_wireIp_front (h : getBytes e 14 8 = getBytes (hostIp d) 14 8) :
    getBytes (wireIp e) 14 8 = getBytes d 14 8 := by
  have hle : ∀ {i n : ℕ}, 14 ≤ i → i + n ≤ 22 → getLe e i n = getLe (hostIp d) i n := by
    intro i n hi hn
    have hpre : getBytes e i n = getBytes (hostIp d) i n := by
      have hsplit : 8 = (i - 14) + (n + (22 - i - n)) := by omega
      rw [hsplit, getBytes_add, getBytes_add, getBytes_add _ 14,
        getBytes_add (hostIp d) (14 + _)] at h
      have hrest := (List.append_inj (List.append_inj h (by simp)).2 (by simp)).1
      rwa [show 14 + (i - 14) = i by omega] at hrest
    rw [getLe, getLe, hpre]
  have hsplit : ∀ m : ℕ → UInt8, getBytes m 14 8 = getBytes m 14 1 ++
        (getBytes m 15 1 ++ (getBytes m 16 2 ++ (getBytes m 18 2 ++ getBytes m 20 2))) := by
    intro m
    rw [← getBytes_add, ← getBytes_add, ← getBytes_add, ← getBytes_add]
  have hlt := @getLe_one_lt d 14
  have h14 : getLe (wireIp e) 14 1 = getLe d 14 1 := by
    rw [getLe_wireIp_ihl, hle (by decide) (by decide), getLe_hostIp_ihl]
    omega
  have h15 : getLe (wireIp e) 15 1 = getLe d 15 1 := by
    have htos := @getLe_hostIp_tos d
    rw [← hle (by decide) (by decide)] at htos
    rw [← htos]
    simp (disch := decide) only [wireIp, swapIpv4At, swapIhlAt, getLe_swapAt_disjoint,
      getLe_putLe_disjoint]
  have h16 : getBytes (wireIp e) 16 2 = getBytes d 16 2 := by
    simp (disch := decide) only [wireIp, swapIpv4At, swapIhlAt, getBytes_swapAt_disjoint,
      getBytes_swapAt, getLe_putLe_disjoint, hle, getLe_hostIp_len, be_ntoh]
  have h18 : getBytes (wireIp e) 18 2 = getBytes d 18 2 := by
    simp (disch := decide) only [wireIp, swapIpv4At, swapIhlAt, getBytes_swapAt_disjoint,
      getBytes_swapAt, getLe_swapAt_disjoint, getLe_putLe_disjoint, hle, getLe_hostIp_id, be_ntoh]
  have h20 : getBytes (wireIp e) 20 2 = getBytes d 20 2 := by
    have hfrag := fragments_round_trip (ntoh_lt 2 (getLe d 20 2))
    simp (disch := decide) only [wireIp, swapIpv4At, swapIhlAt, getBytes_swapAt_disjoint,
      getBytes_putLe, leBytes_ntoh, getLe_putLe_disjoint, hle, getLe_hostIp_frag, hfrag, be_ntoh]
  have hbyte : ∀ i, getLe (wireIp e) i 1 = getLe d i 1 →
    getBytes (wireIp e) i 1 = getBytes d i 1 := by
    intro i hi
    rw [← leBytes_getLe, ← leBytes_getLe, hi]
  rw [hsplit, hsplit, hbyte 14 h14, hbyte 15 h15, h16, h18, h20]

theorem getLe_exchangeIp_addresses :
    getLe (exchangeIp d) 30 4 = getLe d 26 4 ∧ getLe (exchangeIp d) 26 4 = getLe d 30 4 := by
  have hs := getLe_lt d 26 4
  have hd := getLe_lt d 30 4
  simp (disch := decide) only [exchangeIp, getLe_putLe_disjoint, getLe_putLe]
  omega

theorem getBytes_exchangeIp_disjoint (h : i + n ≤ 22 ∨ (23 ≤ i ∧ i + n ≤ 24) ∨ 34 ≤ i) :
    getBytes (exchangeIp d) i n = getBytes d i n := by
  simp (disch := omega) only [exchangeIp, getBytes_putLe_disjoint]

/-- The IP header of the reply in network format, apart from its checksum. -/
structure HeaderSent (d e : ℕ → UInt8) : Prop where
  front : getBytes e 14 8 = getBytes d 14 8
  ttl : getBytes e 22 1 = [64]
  proto : getBytes e 23 1 = [d 23]
  saddr : getBytes e 26 4 = getBytes d 30 4
  daddr : getBytes e 30 4 = getBytes d 26 4
  options : getBytes e 34 (ihl d * 4 - 20) = getBytes d 34 (ihl d * 4 - 20)

theorem HeaderSent.header (h : HeaderSent d e) (h5 : 5 ≤ ihl d) :
    getBytes e 14 (ihl d * 4) = replyHeader d (getBytes e 24 2) := by
  have hlen : ihl d * 4 = 20 + (ihl d * 4 - 20) := by omega
  have hsplit : getBytes e 22 (1 + 1) = getBytes e 22 1 ++ getBytes e 23 1 := getBytes_add _ _ _ _
  rw [hlen, getBytes_header, h.front, hsplit, h.ttl, h.proto, h.saddr, h.daddr,
    h.options, replyHeader]
  rfl

theorem HeaderSent.putCsum (h : HeaderSent d e) (c : ℕ) : HeaderSent d (putLe e 24 2 c) := by
  constructor
  · rw [getBytes_putLe_disjoint (by omega), h.front]
  · rw [getBytes_putLe_disjoint (by omega), h.ttl]
  · rw [getBytes_putLe_disjoint (by omega), h.proto]
  · rw [getBytes_putLe_disjoint (by omega), h.saddr]
  · rw [getBytes_putLe_disjoint (by omega), h.daddr]
  · rw [getBytes_putLe_disjoint (by omega), h.options]

theorem headerSent_wireIp (h : ∀ {i n}, i + n ≤ ipEnd d → getBytes e i n = getBytes (hostIp d) i n)
    (h5 : 5 ≤ ihl d) :
    HeaderSent d (wireIp (exchangeIp e)) := by
  have hend : ipEnd d = 14 + ihl d * 4 := rfl
  constructor
  · exact getBytes_wireIp_front (by rw [getBytes_exchangeIp_disjoint (by omega), h (by omega)])
  · simp (disch := decide) only [wireIp, swapIpv4At, swapIhlAt, exchangeIp,
      getBytes_swapAt_disjoint, getBytes_putLe_disjoint, getBytes_putLe]
    rfl
  · have hwire : getBytes (wireIp (exchangeIp e)) 23 1 = getBytes e 23 1 := by
      simp (disch := decide) only [wireIp, swapIpv4At, swapIhlAt, exchangeIp,
        getBytes_swapAt_disjoint, getBytes_putLe_disjoint]
    rw [hwire, h (by omega), ← leBytes_getLe, getLe_hostIp_proto, leBytes_getLe]
    rfl
  · rw [getBytes_wireIp_saddr, getLe_exchangeIp_addresses.2, getLe, h (by omega), ← getLe,
      getLe_hostIp_daddr, be_ntoh]
  · rw [getBytes_wireIp_daddr, getLe_exchangeIp_addresses.1, getLe, h (by omega), ← getLe,
      getLe_hostIp_saddr, be_ntoh]
  · rw [getBytes_wireIp_of_ge le_rfl, getBytes_exchangeIp_disjoint (by omega), h (by omega),
      getBytes_hostIp_of_ge le_rfl]

/-- The header as it is sent. -/
theorem getBytes_echoIpAt (h : ∀ {i n}, i + n ≤ ipEnd d → getBytes e i n = getBytes (hostIp d) i n)
    (h5 : 5 ≤ ihl d) :
    getBytes (echoIpAt e) 14 (ihl d * 4) =
      replyHeader d (checksum ((replyHeader d [0, 0]).take (ihl d % 8 * 4))) := by
  have hsent := headerSent_wireIp h h5
  have hempty : getBytes (wireIp (exchangeIp e)) 24 2 = [0, 0] := by
    simp (disch := decide) only [wireIp, swapIpv4At, swapIhlAt, exchangeIp,
      getBytes_swapAt_disjoint, getBytes_swapAt, getLe_swapAt_disjoint,
      getLe_putLe_disjoint, getLe_putLe]
    rfl
  have hwire := hsent.header h5
  have hfirst : getBytes (wireIp (exchangeIp e)) 14 1 = getBytes d 14 1 := by
    rw [← getBytes_take (show 1 ≤ 8 by decide), hsent.front, getBytes_take (by decide)]
  have hhlen : getLe (wireIp (exchangeIp e)) 14 1 % 8 = ihl d % 8 := by
    rw [getLe, hfirst, ← getLe]
    exact (Nat.mod_mod_of_dvd _ (by decide)).symm
  rw [hempty] at hwire
  rw [echoIpAt, hhlen, (hsent.putCsum _).header h5, getBytes_putLe,
    leBytes_csumOf (by omega), ← hwire,
    getBytes_take (by omega)]

theorem getBytes_echoIpAt_disjoint (h : i + n ≤ 14 ∨ 34 ≤ i) :
    getBytes (echoIpAt e) i n = getBytes e i n := by
  rw [echoIpAt]
  simp (disch := omega) only [wireIp, swapIpv4At, swapIhlAt, exchangeIp, getBytes_swapAt_disjoint,
    getBytes_putLe_disjoint]

theorem getBytes_echoEthAt_of_ge (hmac : mac.length = 6) (h : 14 ≤ i) :
    getBytes (echoEthAt mac d) i n = getBytes d i n := by
  rw [echoEthAt, getBytes_swapAt_disjoint (by omega), getBytes_putBytes_disjoint (by omega),
    getBytes_putBytes_disjoint (by rw [length_getBytes]; omega)]

/-- The Ethernet header of the reply. -/
theorem getBytes_echoEthAt (hmac : mac.length = 6) :
    getBytes (echoEthAt mac d) 0 14 = getBytes d 6 6 ++ (mac ++ be 2 (getLe d 12 2)) := by
  have hdmac : getBytes (echoEthAt mac d) 0 6 = getBytes d 6 6 := by
    rw [echoEthAt, getBytes_swapAt_disjoint (by omega), getBytes_putBytes_disjoint (by omega)]
    exact getBytes_putBytes _ _ _
  have hsmac : getBytes (echoEthAt mac d) 6 6 = mac := by
    rw [echoEthAt, getBytes_swapAt_disjoint (by omega)]
    have := getBytes_putBytes (putBytes d 0 (getBytes d 6 6)) 6 mac
    rwa [hmac] at this
  have htype : getBytes (echoEthAt mac d) 12 2 = be 2 (getLe d 12 2) := by
    rw [echoEthAt, getBytes_swapAt, getLe, getBytes_putBytes_disjoint (by omega),
      getBytes_putBytes_disjoint (by rw [length_getBytes]; omega), ← getLe]
  have hsplit : getBytes (echoEthAt mac d) 0 (6 + (6 + 2)) = getBytes (echoEthAt mac d) 0 6 ++
      (getBytes (echoEthAt mac d) (0 + 6) 6 ++ getBytes (echoEthAt mac d) (0 + 6 + 6) 2) := by
    rw [getBytes_add, getBytes_add]
  rw [hdmac, hsmac, htype] at hsplit
  exact hsplit

theorem getBytes_hostIp_of_le (h : i + n ≤ 12) : getBytes (hostIp d) i n = getBytes d i n := by
  simp (disch := omega) only [hostIp, swapIpv4At, hostFragAt, swapIhlAt, getBytes_swapAt_disjoint,
    getBytes_putLe_disjoint]

theorem getLe_hostIp_type : getLe (hostIp d) 12 2 = ntoh 2 (getLe d 12 2) := by
  simp (disch := decide) only [hostIp, swapIpv4At, hostFragAt, swapIhlAt, getLe_swapAt_disjoint,
    getLe_putLe_disjoint, getLe_swapAt]

/-- **The frame that is sent**, for a message of at least four bytes. -/
theorem getBytes_reply {netif : Netif} {size : ℕ} (h5 : 5 ≤ ihl d) (h4 : 4 ≤ messageLen d)
    (hsize : 14 + ipLen d ≤ size)
    (hc : 4 ≤ icmpLen d) :
    getBytes (echoEthAt netif.mac
      (echoIpAt (echoIcmpAt (ipEnd d) (swapAt 2 (ipEnd d + 2) (hostIp d))))) 0 size =
      replyFrame netif size d (checksum ((replyHeader d [0, 0]).take (ihl d % 8 * 4)))
        (checksum (replyMessage d (icmpLen d) [0, 0])) := by
  have hend : ipEnd d = 14 + ihl d * 4 := rfl
  have hlen : messageLen d = ipLen d - ihl d * 4 := rfl
  have hmem : ∀ {i n}, i + n ≤ ipEnd d →
      getBytes (echoIcmpAt (ipEnd d) (swapAt 2 (ipEnd d + 2) (hostIp d))) i n =
        getBytes (hostIp d) i n := by
    intro i n h
    rw [getBytes_echoIcmpAt_disjoint (by omega), getBytes_swapAt_disjoint (by omega)]
  have hbehind : ∀ {i n}, ipEnd d + 4 ≤ i →
    getBytes (swapAt 2 (ipEnd d + 2) (hostIp d)) i n = getBytes d i n := by
    intro i n h
    rw [getBytes_swapAt_disjoint (by omega), getBytes_hostIp_of_ge (by omega)]
  have htotal : getLe (swapAt 2 (ipEnd d + 2) (hostIp d)) 16 2 - 20 = icmpLen d := by
    rw [getLe_swapAt_disjoint (by omega), getLe_hostIp_len, icmpLen]
  have hsplit : size = 14 + (ihl d * 4 + (messageLen d + (size - (14 + ipLen d)))) := by omega
  have heth :
      getBytes
          (echoEthAt netif.mac
            (echoIpAt (echoIcmpAt (ipEnd d) (swapAt 2 (ipEnd d + 2) (hostIp d))))) 0 14 =
        getBytes d 6 6 ++ (netif.mac ++ getBytes d 12 2) := by
    rw [getBytes_echoEthAt netif.mac_size, getBytes_echoIpAt_disjoint (by omega), hmem (by omega),
      getBytes_hostIp_of_le (by omega), getLe, getBytes_echoIpAt_disjoint (by omega),
      hmem (by omega),
        ← getLe,
      getLe_hostIp_type, be_ntoh]
  have hmsg := getBytes_echoIcmpAt (fun _ => hbehind le_rfl) htotal (by omega) hc h4
  conv_lhs => rw [hsplit]
  rw [getBytes_add, getBytes_add, getBytes_add, heth,
    getBytes_echoEthAt_of_ge netif.mac_size (by omega),
    getBytes_echoEthAt_of_ge netif.mac_size (by omega),
      getBytes_echoEthAt_of_ge netif.mac_size (by omega), Nat.zero_add,
    getBytes_echoIpAt hmem h5, getBytes_echoIpAt_disjoint (by omega), ← hend, hmsg,
      getBytes_echoIpAt_disjoint (by omega),
    getBytes_echoIcmpAt_disjoint (by omega), hbehind (by omega), replyFrame]
  simp only [List.append_assoc]
  congr 6
  omega

end

/-! ### What `ip_process` sends -/

section

variable {s : Rx} {d : ℕ → UInt8} {r : ℕ}

/-- A request is answered if its message verifies over the length that the code takes it to have. -/
theorem wp_echo (h : EchoRequest (s.net.netifs s.buf.nic) s.buf.size d) :
    wp ipProcess
      (fun _ t => t.net.sent = s.net.sent ++ if Verifies (getBytes d (ipEnd d) (icmpLen d)) then
      [replyFrame (s.net.netifs s.buf.nic) s.buf.size d
        (checksum ((replyHeader d [0, 0]).take (ihl d % 8 * 4)))
        (checksum (replyMessage d (icmpLen d) [0, 0]))] else []) (fun _ _ => False) (s.at d r) := by
  have h5 : 5 ≤ ihl d := h.accepted.2.1
  have hmsg := h.message
  have hlt : ipLen d < 256 ^ 2 := ntoh_lt _ _
  have hend : ipEnd d = 14 + ihl d * 4 := rfl
  have hlen : messageLen d = ipLen d - ihl d * 4 := rfl
  have hicmp : icmpLen d = ipLen d - 20 := rfl
  have hcsum : csumOf (hostIp d) (ipEnd d) (icmpLen d) = csumOf d (ipEnd d) (icmpLen d) :=
    csumOf_congr fun q h1 _ => hostIp_of_ge (by omega)
  have htype : getLe (swapAt 2 (ipEnd d + 2) (hostIp d)) (ipEnd d) 1 = 8 := by
    rw [getLe_swapAt_disjoint (by omega), getLe_hostIp_of_ge (by omega), h.type]
  have ho : 14 + getLe (swapAt 2 (ipEnd d + 2) (hostIp d)) 14 1 / 16 * 4 = ipEnd d := by
    rw [getLe_swapAt_disjoint (by omega), getLe_hostIp_end]
  rw [wp_ipProcess_accepted h.accepted, if_pos h.proto, wp_discard]
  simp only [icmpv4Process, wp_bind, wp_ipData, wp_rd, wp_ipCsum, getLe_hostIp_end,
    getLe_hostIp_len, wp_ite, wp_pure]
  rw [← icmpLen, hcsum]
  by_cases hver : Verifies (getBytes d (ipEnd d) (icmpLen d))
  · have hzero : ¬csumOf d (ipEnd d) (icmpLen d) ≠ 0 :=
      not_not.mpr ((csumOf_eq_zero_iff (by omega)).mpr hver)
    rw [if_neg hzero, if_pos hver]
    simp only [buf2icmpv4, wp_swap, wp_rd, htype, if_true]
    refine (wp_icmpv4EchoReply ho).mono (fun _ t ht => ?_) fun _ _ => id
    rw [ht, getBytes_reply h5 (by omega) h.inFrame (by omega)]
  · rw [if_pos (mt (csumOf_eq_zero_iff (by omega)).mp hver), if_neg hver]
    simp

/-- The frame fixes both checksums. -/
theorem replyFrame_inj {netif : Netif} {size : ℕ} {a b a' b' : List UInt8} (ha : a.length = 2)
    (ha' : a'.length = 2)
    (hb : b.length = 2) (hb' : b'.length = 2) :
    replyFrame netif size d a b = replyFrame netif size d a' b' ↔ a = a' ∧ b = b' := by
  constructor
  · intro h
    unfold replyFrame replyHeader replyMessage at h
    simp only [List.append_assoc, List.append_cancel_left_eq] at h
    have h1 := List.append_inj h (ha.trans ha'.symm)
    have h2 := h1.2
    simp only [List.append_cancel_left_eq] at h2
    exact ⟨h1.1, (List.append_inj h2 (hb.trans hb'.symm)).1⟩
  · rintro ⟨rfl, rfl⟩
    rfl

/-- A header without options leaves no difference. -/
theorem sameChecksums_of_plain (h : ihl d = 5) : SameChecksums d := by
  have hlen : icmpLen d = messageLen d := by
    rw [messageLen, h]
    rfl
  have hheader : (replyHeader d [0, 0]).length ≤ ihl d % 8 * 4 := by
    simp [replyHeader, h]
  constructor
  · rw [Intact, hlen]
  · rw [List.take_of_length_le hheader]
    exact fun _ => rfl
  · rw [hlen]
    exact fun _ => rfl

/-- An intact request whose message does not verify over the length that the code takes it to have
gets no reply. -/
theorem not_answered (h : EchoRequest (s.net.netifs s.buf.nic) s.buf.size s.buf.data)
    (hintact : Intact s.buf.data)
    (hcode : ¬Verifies (getBytes s.buf.data (ipEnd s.buf.data) (icmpLen s.buf.data))) :
    ¬Answered s := by
  intro hanswered
  obtain ⟨a, t, hm, hsent⟩ := hanswered.returns
  have hrun := (wp_echo (r := s.buf.reach) h).ok hm
  rw [if_pos hintact] at hsent
  rw [if_neg hcode, hsent, List.append_cancel_left_eq] at hrun
  exact absurd hrun (List.cons_ne_nil _ _)

/-- A request is answered as it is to be exactly when the three checksums come out the same over the
bytes that the code takes. -/
theorem answered_iff (h : EchoRequest (s.net.netifs s.buf.nic) s.buf.size s.buf.data) :
    Answered s ↔ SameChecksums s.buf.data := by
  refine wp_iff ((wp_echo h).mono (fun _ t ht => ?_) fun _ _ => False.elim)
  rw [ht, List.append_cancel_left_eq]
  by_cases hcode : Verifies (getBytes s.buf.data (ipEnd s.buf.data) (icmpLen s.buf.data))
  · rw [if_pos hcode]
    by_cases hintact : Intact s.buf.data
    · rw [if_pos hintact, List.singleton_inj, reply,
        replyFrame_inj (length_checksum _) (length_checksum _)
        (length_checksum _) (length_checksum _)]
      exact ⟨fun h => ⟨iff_of_true hintact hcode, fun _ => h.1, fun _ => h.2⟩, fun h =>
        ⟨h.header hintact, h.message hintact⟩⟩
    · rw [if_neg hintact]
      exact iff_of_false (List.cons_ne_nil _ _) fun h => hintact (h.request.mpr hcode)
  · rw [if_neg hcode]
    by_cases hintact : Intact s.buf.data
    · rw [if_pos hintact]
      exact iff_of_false (List.cons_ne_nil _ _).symm fun h => hcode (h.request.mp hintact)
    · rw [if_neg hintact]
      exact iff_of_true rfl
        ⟨iff_of_false hintact hcode, fun h => absurd h hintact, fun h => absurd h hintact⟩
end

/-! ### The sums -/

/-- The word of a byte that is not 0. -/
theorem wordsBe_pos {a : UInt8} (h : a.toNat ≠ 0) (l : List UInt8) : 0 < wordsBe (a :: l) := by
  cases l with
  | nil =>
    rw [wordsBe]
    omega
  | cons b l =>
    rw [wordsBe]
    omega

/-- A checksum is known from the sum. -/
theorem checksum_eq_iff {l m : List UInt8} :
    checksum l = checksum m ↔ reduce (wordsBe l) = reduce (wordsBe m) := by
  constructor
  · intro h
    have hl := reduce_lt (wordsBe l)
    have hm := reduce_lt (wordsBe m)
    have hwords := congrArg wordsLe h
    rw [wordsLe_checksum, wordsLe_checksum, reduce_wordsLe, reduce_wordsLe] at hwords
    unfold swap16 at hwords
    omega
  · intro h
    rw [checksum, h, checksum]

section

variable {netif : Netif} {size : ℕ} {d : ℕ → UInt8}

theorem EchoRequest.icmpLen_eq (h : EchoRequest netif size d) :
    icmpLen d = messageLen d + (ihl d * 4 - 20) := by
  have h5 : 5 ≤ ihl d := h.accepted.2.1
  have hmsg := h.message
  unfold messageLen
  show ipLen d - 20 = _
  omega

theorem EchoRequest.packet_end (h : EchoRequest netif size d) :
    ipEnd d + messageLen d = 14 + ipLen d := by
  have hmsg := h.message
  unfold messageLen
  show 14 + ihl d * 4 + _ = _
  omega

/-- The message of the request, with the bytes behind the packet. -/
theorem EchoRequest.wordsBe_message (h : EchoRequest netif size d) :
    wordsBe (getBytes d (ipEnd d) (icmpLen d)) =
      wordsBe (getBytes d (ipEnd d) (messageLen d)) + wordsBe (bytesBehind d) := by
  rw [h.icmpLen_eq, getBytes_add, wordsBe_append, length_getBytes, h.packet_end, bytesBehind]

/-- The message of the reply, with the bytes behind the packet. -/
theorem EchoRequest.wordsBe_replyMessage (h : EchoRequest netif size d) :
    wordsBe (replyMessage d (icmpLen d) [0, 0]) =
      wordsBe (replyMessage d (messageLen d) [0, 0]) + wordsBe (bytesBehind d) := by
  have h4 : 4 ≤ messageLen d := by
    have hmsg := h.message
    unfold messageLen
    omega
  obtain ⟨k, hk⟩ := Nat.exists_eq_add_of_le h4
  have hend := h.packet_end
  have hlen : (replyMessage d (messageLen d) [0, 0]).length = messageLen d := by
    rw [hk, replyMessage_add]
    simp
    omega
  have hsplit : replyMessage d (icmpLen d) [0, 0] = replyMessage d (messageLen d) [0, 0] ++
      getBytes d (14 + ipLen d) (ihl d * 4 - 20) := by
    rw [h.icmpLen_eq, ← hend, hk, Nat.add_assoc, replyMessage_add, replyMessage_add, getBytes_add,
      Nat.add_assoc (ipEnd d)]
    simp only [List.append_assoc]
  rw [hsplit, wordsBe_append, hlen, bytesBehind]

theorem EchoRequest.message_pos (h : EchoRequest netif size d) :
    0 < wordsBe (getBytes d (ipEnd d) (messageLen d)) := by
  have htype := h.type
  have hlen : messageLen d = 1 + (messageLen d - 1) := by
    have hmsg := h.message
    unfold messageLen
    omega
  have hfirst : (d (ipEnd d + 0)).toNat ≠ 0 := by
    rw [Nat.add_zero, ← getLe_one, htype]
    decide
  rw [hlen, getBytes_add]
  exact wordsBe_pos hfirst _

theorem EchoRequest.header_iff (h : EchoRequest netif size d) :
    checksum ((replyHeader d [0, 0]).take (ihl d % 8 * 4)) = checksum (replyHeader d [0, 0]) ↔
      (9 ≤ ihl d → wordsBe ((replyHeader d [0, 0]).drop ((ihl d - 8) * 4)) % 65535 = 0) := by
  obtain ⟨hwanted, hver⟩ := ipAccepted_iff.mp h.accepted
  have hlt : ihl d < 16 := Nat.mod_lt _ (by decide)
  obtain h8 | h8 | h9 : ihl d < 8 ∨ ihl d = 8 ∨ 9 ≤ ihl d := by omega
  · have hall : (replyHeader d [0, 0]).length ≤ ihl d % 8 * 4 := by
      have h5 := hwanted.ihl
      rw [Nat.mod_eq_of_lt h8]
      simp [replyHeader]
      omega
    rw [List.take_of_length_le hall]
    exact iff_of_true rfl fun h9 => by omega
  · rw [h8] at hver
    exact absurd hver (show ¬reduce (wordsBe []) = 65535 by decide)
  · have hfirst : 0 < wordsBe ((replyHeader d [0, 0]).take ((ihl d - 8) * 4)) := by
      obtain ⟨k, hk⟩ := Nat.exists_eq_add_of_le (show 1 ≤ (ihl d - 8) * 4 by omega)
      have hversion := hwanted.version
      have hbyte : (d (14 + 0)).toNat ≠ 0 := by
        rw [Nat.add_zero, ← getLe_one]
        omega
      rw [hk, Nat.add_comm]
      exact wordsBe_pos hbyte _
    have hparts := wordsBe_take_add_drop (replyHeader d [0, 0])
      (show (ihl d - 8) * 4 % 2 = 0 by omega)
    rw [show ihl d % 8 = ihl d - 8 by omega, checksum_eq_iff, hparts, eq_comm, reduce_add_eq_iff]
    exact ⟨fun hsum _ => hsum.1, fun hsum => ⟨hsum h9, fun h0 => by omega⟩⟩

/-- The checksums come out the same exactly when the sums make no difference. -/
theorem EchoRequest.sameChecksums_iff (h : EchoRequest netif size d) :
    SameChecksums d ↔ SameSums d := by
  have hpos := h.message_pos
  have hrequest : (Intact d ↔ Verifies (getBytes d (ipEnd d) (icmpLen d))) ↔
      (Intact d → wordsBe (bytesBehind d) % 65535 = 0) ∧ (¬Intact d →
        (wordsBe (getBytes d (ipEnd d) (messageLen d)) + wordsBe (bytesBehind d)) % 65535 ≠ 0) := by
    rw [Intact, Verifies, Verifies, h.wordsBe_message, reduce_eq_full_iff, reduce_eq_full_iff]
    omega
  have hmessage : checksum (replyMessage d (icmpLen d) [0, 0]) =
      checksum (replyMessage d (messageLen d) [0, 0]) ↔ wordsBe (bytesBehind d) % 65535 = 0 ∧
        (wordsBe (replyMessage d (messageLen d) [0, 0]) = 0 → wordsBe (bytesBehind d) = 0) := by
    rw [checksum_eq_iff, h.wordsBe_replyMessage, reduce_add_eq_iff]
  constructor
  · rintro ⟨hreq, hhead, hmsg⟩
    have hreq := hrequest.mp hreq
    exact ⟨hreq.1, fun hi => (hmessage.mp (hmsg hi)).2,
      fun hi => h.header_iff.mp (hhead hi), hreq.2⟩
  · rintro ⟨hintact, hempty, hhead, hcorrupt⟩
    exact ⟨hrequest.mpr ⟨hintact, hcorrupt⟩, fun hi => h.header_iff.mpr (hhead hi),
      fun hi => hmessage.mpr ⟨hintact hi, hempty hi⟩⟩

end

/-- **Echo replies**: a request is answered as it is to be exactly when the bytes that the code sums
in addition, and those that it leaves out, make no difference to the three sums. -/
theorem echo_reply_iff (s : Rx) (h : EchoRequest (s.net.netifs s.buf.nic) s.buf.size s.buf.data) :
    Answered s ↔ SameSums s.buf.data :=
  (answered_iff h).trans h.sameChecksums_iff

/-- An echo request with 12 bytes of data to the broadcast address. -/
def pingFrame : Frame where
  nic := 0
  size := 62
  data i := [0xFF, 0xFF, 0xFF, 0xFF, 0xFF, 0xFF, 0, 1, 2, 3, 4, 5, 0x08, 0x00,
    0x45, 0, 0, 40, 0, 0, 0x40, 0, 64, 1, 0x2E, 0xD4, 10, 0, 2, 2, 0xFF, 0xFF, 0xFF, 0xFF,
    8, 0, 0x8E, 0x92, 0, 1, 0, 1, 0x61, 0x62, 0, 0, 0, 0, 0, 0, 8, 9].getD i 0
  size_ge := by decide
  size_le := by decide

/-- An echo request with a word of options, and a byte behind the packet that is not 0. -/
def optionsPing : Frame where
  nic := 0
  size := 63
  data i := [0xFF, 0xFF, 0xFF, 0xFF, 0xFF, 0xFF, 0, 1, 2, 3, 4, 5, 0x08, 0x00,
    0x46, 0, 0, 32, 0, 0, 0, 0, 64, 1, 0x6D, 0xDC, 10, 0, 2, 2, 0xFF, 0xFF, 0xFF, 0xFF, 0, 0, 0, 0,
    8, 0, 0xF7, 0xFD, 0, 1, 0, 1, 1].getD i 0
  size_ge := by decide
  size_le := by decide

theorem echo_reply_iff_ping :
    EchoRequest (boundStack.netifs 0) pingFrame.size pingFrame.data ∧
      Answered ⟨boundStack, pingFrame.buf⟩ := by
  have hwanted : Wanted (boundStack.netifs 0) pingFrame.data :=
    ⟨by decide, by decide, by decide, by decide⟩
  have hver : Verifies (ipHeader pingFrame.data (ihl pingFrame.data % 8 * 4)) := by decide
  have hrequest : EchoRequest (boundStack.netifs 0) 62 pingFrame.data :=
    ⟨ipAccepted_iff.mpr ⟨hwanted, hver⟩, by decide, by decide, by decide, by decide⟩
  have hplain : ihl pingFrame.data = 5 := by decide
  have hsums : SameSums pingFrame.data :=
    hrequest.sameChecksums_iff.mp (sameChecksums_of_plain hplain)
  rw [echo_reply_iff ⟨boundStack, pingFrame.buf⟩ hrequest]
  exact ⟨hrequest, hsums⟩

/-- The request is intact and gets no reply. -/
theorem options_unanswered :
    EchoRequest (boundStack.netifs 0) optionsPing.size optionsPing.data ∧
      ¬Answered ⟨boundStack, optionsPing.buf⟩ := by
  have hwanted : Wanted (boundStack.netifs 0) optionsPing.data :=
    ⟨by decide, by decide, by decide, by decide⟩
  have hver : Verifies (ipHeader optionsPing.data (ihl optionsPing.data % 8 * 4)) := by decide
  have hrequest : EchoRequest (boundStack.netifs 0) 63 optionsPing.data :=
    ⟨ipAccepted_iff.mpr ⟨hwanted, hver⟩, by decide, by decide, by decide, by decide⟩
  have hintact : Intact optionsPing.data := by decide
  have hcode :
    ¬Verifies (getBytes optionsPing.data (ipEnd optionsPing.data) (icmpLen optionsPing.data)) := by
    decide
  exact ⟨hrequest, not_answered (s := ⟨boundStack, optionsPing.buf⟩) hrequest hintact hcode⟩

end Cosiris.Net
