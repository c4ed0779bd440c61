import Cclab.HttpTrips

/-! A call that is given the first bytes of the data, and a call that is given all of them: what
the one state by state makes of its bytes, the other does as well. -/
namespace Cclab.HttpParser

/-- Whether the data are accepted from here on, and what is left of them then. -/
def verdict (behind : UInt8) (m : Machine) (p : Bytes) : Option (Option Bytes) :=
  (loop behind p.length m p).map fun r => if r.1.httpErrno = .ok then some r.2.2 else none

def Outcome.verdict (behind : UInt8) (rest : Bytes) : Outcome → Option (Option Bytes)
  | .next m skip _ => HttpParser.verdict behind m (rest.drop skip)
  | .leave m p _ => some (if m.parser.httpErrno = .ok then some p else none)
  | .abort => none

theorem verdict_nil (behind : UInt8) (m : Machine) (hm : Valid m) : verdict behind m [] = some (some []) := by
  rcases hm.flush m with ⟨calls,hcalls,-⟩
  change (m.flush.map fun calls => (m.parser, withUnread [] calls, [])).map _ = _
  rw [hcalls]
  exact congrArg some (if_pos hm.ok)

theorem verdict_cons (behind : UInt8) (m : Machine) (ch : UInt8) (rest : Bytes) :
    verdict behind m (ch :: rest) = (iteration behind m ch rest).verdict behind rest := by
  unfold verdict
  rw [List.length_cons, loop]
  cases iteration behind m ch rest with
  | next m' skip calls =>
    have hlen : (rest.drop skip).length ≤ rest.length := by
      rw [List.length_drop]
      exact Nat.sub_le _ _
    dsimp only [Outcome.verdict]
    rw [verdict, loop_fuel behind rest.length (rest.drop skip).length m' (rest.drop skip) hlen
      (Nat.le_refl _), Option.map_map]
    rfl
  | leave m' p calls => rfl
  | abort => rfl

theorem Outcome.Fails.verdict (behind : UInt8) (rest : Bytes) (o : Outcome) (h : o.Fails) :
    o.verdict behind rest = some none := by
  cases o with
  | leave m p calls => exact congrArg some (if_neg h)
  | next m skip calls => exact h.elim
  | abort => exact h.elim

/-- The count of the head may be larger where the data are cut, up to its limit. -/
def cutLink (w : Bytes) : Link where
  count n n' := n'.toNat ≤ n.toNat ∧ n.toNat ≤ httpMaxHeaderSize.toNat
  mark _ _ := True
  calls _ _ := True
  data p p' := p' = p ++ w
  count_zero := by decide
  mark_none := True.intro
  mark_here _ _ _ _ _ _ := True.intro
  calls_nil := True.intro
  calls_append _ _ _ _ _ _ := True.intro
  calls_data _ _ _ _ _ _ _ := True.intro
  calls_notify _ _ _ _ _ _ := True.intro
  data_tail := tail_append w

/-- The machines agree up to the count of the head and the marks. -/
abbrev Alike (m m' : Machine) : Prop := (cutLink []).Machines m m'

theorem Alike.link (m m' : Machine) (h : Alike m m') (w : Bytes) : (cutLink w).Machines m m' :=
  ⟨⟨h.parser.eq,h.parser.count⟩,True.intro,True.intro,True.intro,True.intro⟩

theorem alike_of_link (w : Bytes) (m m' : Machine) (h : (cutLink w).Machines m m') : Alike m m' :=
  ⟨⟨h.parser.eq,h.parser.count⟩,True.intro,True.intro,True.intro,True.intro⟩

theorem Alike.of_parser (m m' : Machine) (h : m'.parser = { m.parser with nread := m'.parser.nread })
    (hle : m'.parser.nread.toNat ≤ m.parser.nread.toNat)
    (hmax : m.parser.nread.toNat ≤ httpMaxHeaderSize.toNat) : Alike m m' :=
  ⟨⟨h,hle,hmax⟩,True.intro,True.intro,True.intro,True.intro⟩

theorem Alike.state (m m' : Machine) (h : Alike m m') : m'.parser.state = m.parser.state := by
  rw [h.parser.eq]

/-- What the call with all the data comes to, given what the shorter one does with a byte: it fails
as well or is left as well, or goes on like it, unless a later call begins with a bad byte. -/
def Outcome.Cut (behind : UInt8) (w rest : Bytes) (v : Option (Option Bytes)) : Outcome → Prop
  | .leave m p _ => v = some (if m.parser.httpErrno = .ok then some (p ++ w) else none)
  | .next m skip _ => ∃ m', Valid m' ∧ Alike m m' ∧
      (v = HttpParser.verdict behind m' (rest.drop skip ++ w) ∨
        rest.drop skip = [] ∧ BadStart m.parser w)
  | .abort => False

theorem Alike.add (m m' : Machine) (h : Alike m m') (v : ℕ)
    (hv : m.parser.nread.toNat+v ≤ httpMaxHeaderSize.toNat) : Alike (m.add v) (m'.add v) := by
  have hle := h.parser.count.1
  have hmax : httpMaxHeaderSize.toNat = 81920 := rfl
  have hadd := add_nread m v (by omega)
  have hadd' := add_nread m' v (by omega)
  apply Alike.of_parser
  · obtain ⟨n,f,e,u,b,rfl,-⟩ := h.elim
    rfl
  · omega
  · omega

theorem Outcome.Cut.of_link (behind : UInt8) (w rest : Bytes) (o o' : Outcome)
    (h : (cutLink w).Outcomes o o') (hkeeps : o'.Keeps) :
    o.Cut behind w rest (o'.verdict behind (rest ++ w)) := by
  cases o <;> cases o'
  case next.next m skip calls m' skip' calls' =>
    obtain ⟨hm,⟨rfl,rfl⟩,-⟩ := h
    exact ⟨m', hkeeps.1, alike_of_link w m m' hm, Or.inl rfl⟩
  case leave.leave m p calls m' p' calls' =>
    obtain ⟨hp,hd,-⟩ := h
    have herrno : m'.parser.httpErrno = m.parser.httpErrno := by rw [hp.eq]
    change some _ = some _
    rw [herrno, hd]
  case abort.abort => exact hkeeps.elim
  all_goals exact h.elim

section states
variable (behind behind' : UInt8) (m m' : Machine) (ch : UInt8) (rest w : Bytes) (hm : Valid m)
  (hm' : Valid m') (h : Alike m m') (hlong : ¬ Overlong m (ch :: rest))

include hm hm' h hlong

theorem cut_short (hshort : longState m.parser.state = false)
    (hnext : m.parser.state = .startReq →
      startMethod ch (rest.headD behind) = startMethod ch ((rest ++ w).headD behind')) :
    (iteration behind m ch rest).Cut behind' w rest (verdict behind' m' (ch :: rest ++ w)) := by
  have hkeeps := keeps_iteration behind' m' ch (rest ++ w) hm'
  rw [List.cons_append, verdict_cons]
  apply Outcome.Cut.of_link _ _ _ _ _ _ hkeeps
  have hstate := h.state
  by_cases hhead : parsingHeader m.parser.state = true
  · -- the byte is counted, and both counts stay below the limit
    have hone : m.parser.nread.toNat+1 ≤ httpMaxHeaderSize.toNat := by
      by_contra hover
      refine hlong ⟨hhead, ?_⟩
      omega
    have hle := h.parser.count.1
    rw [iteration_head behind m ch rest hhead, iteration_head behind' m' ch _ (by rw [hstate, hhead]),
      count_pass m 1 _ _ hone, count_pass m' 1 _ _ (by omega)]
    apply Link.switch _ _ _ _ _ _ _ _ ((h.add m m' 1 hone).link _ _ w) rfl hshort hnext
    intro hs
    -- a chunk size begins a count of its own
    have ha := hm.asserted
    have ha' := hm'.asserted
    rw [Asserted, show m.parser.state = .chunkSizeStart from hs] at ha
    rw [Asserted, hstate, show m.parser.state = .chunkSizeStart from hs] at ha'
    change m.parser.nread+UInt32.ofNat 1 = 1 ↔ m'.parser.nread+UInt32.ofNat 1 = 1
    rw [ha.2, ha'.2]
  · unfold iteration
    rw [if_neg hhead, if_neg (by rw [hstate]; exact hhead)]
    apply Link.switch _ _ _ _ _ _ _ _ (h.link _ _ w) rfl hshort hnext
    intro hs
    rw [hs] at hhead
    exact absurd rfl hhead

end states

end Cclab.HttpParser
