import Mathlib.Data.List.Nodup
import MessageBroker.WireFormat

/-!
# The vector of subscriber records

The two ways the server finds a record: by the client's ID when a connection is
accepted, and by the descriptor when a packet arrives. A pointer into the vector is the
record together with the records before and behind it.
-/
namespace MessageBroker.SubscriberRecords
open ByteStrings WireFormat

/-- What `char id[MAX_ID]` can hold: at most three characters and a terminator. -/
def ClientId : Type := {s : Bytes // s.length < maxId ∧ 0 ∉ s}
  deriving DecidableEq

structure Subscriber where
  fd : ℕ
  id : ClientId
  topics : List Bytes
  online : Bool
  deriving DecidableEq

/-- A pointer to the record `sub` of the vector `before ++ sub :: behind`. -/
structure SubRef where
  before : List Subscriber
  sub : Subscriber
  behind : List Subscriber

/-- The vector after a write through the pointer. -/
def SubRef.write (r : SubRef) (sub : Subscriber) : List Subscriber := r.before ++ sub :: r.behind

theorem SubRef.mem_write {r : SubRef} {x d : Subscriber} :
    d ∈ r.write x ↔ d ∈ r.before ∨ d = x ∨ d ∈ r.behind := by simp [SubRef.write]

/-- The pointer points into the vector. -/
def SubRef.Into (r : SubRef) (subs : List Subscriber) : Prop :=
  subs = r.before ++ r.sub :: r.behind

theorem SubRef.Into.mem {r : SubRef} {subs : List Subscriber} (h : r.Into subs) : r.sub ∈ subs := by
  rw [h]
  simp

/-- The other records are still there after a write. -/
theorem SubRef.Into.mem_write_of_ne {r : SubRef} {subs : List Subscriber} (h : r.Into subs)
    {d : Subscriber} (hd : d ∈ subs) (hne : d ≠ r.sub) (x : Subscriber) : d ∈ r.write x := by
  rw [h] at hd
  rw [SubRef.mem_write]
  rcases List.mem_append.mp hd with hd | hd
  · exact .inl hd
  · rcases List.mem_cons.mp hd with rfl | hd
    · exact absurd rfl hne
    · exact .inr (.inr hd)

/-- A write that keeps the ID keeps the list of IDs. -/
theorem SubRef.Into.map_id_write {r : SubRef} {subs : List Subscriber} (h : r.Into subs)
    {x : Subscriber} (hx : x.id = r.sub.id) :
    (r.write x).map Subscriber.id = subs.map Subscriber.id := by
  rw [h, SubRef.write]
  simp [hx]

/-- Such a write leaves the same IDs with a record, and the same without. -/
theorem SubRef.Into.exists_id_write {r : SubRef} {subs : List Subscriber} (h : r.Into subs)
    {x : Subscriber} (hx : x.id = r.sub.id) (y : Bytes) :
    (∃ d ∈ r.write x, d.id.val = y) ↔ ∃ d ∈ subs, d.id.val = y := by
  have hsame {l m : List Subscriber} (hids : l.map Subscriber.id = m.map Subscriber.id)
      (hl : ∃ d ∈ l, d.id.val = y) : ∃ d ∈ m, d.id.val = y := by
    obtain ⟨d, hd, hid⟩ := hl
    have hmem : d.id ∈ m.map Subscriber.id := hids ▸ List.mem_map_of_mem hd
    obtain ⟨e, he, heid⟩ := List.mem_map.mp hmem
    exact ⟨e, he, heid ▸ hid⟩
  exact ⟨hsame (h.map_id_write hx), hsame (h.map_id_write hx).symm⟩

theorem SubRef.Into.forall_id_write {r : SubRef} {subs : List Subscriber} (h : r.Into subs)
    {x : Subscriber} (hx : x.id = r.sub.id) (y : Bytes) :
    (∀ d ∈ r.write x, d.id.val ≠ y) ↔ ∀ d ∈ subs, d.id.val ≠ y := by
  constructor
  · intro hall d hd hid
    obtain ⟨e, he, heid⟩ := (h.exists_id_write hx y).mpr ⟨d, hd, hid⟩
    exact hall e he heid
  · intro hall d hd hid
    obtain ⟨e, he, heid⟩ := (h.exists_id_write hx y).mp ⟨d, hd, hid⟩
    exact hall e he heid

/-- With distinct IDs a record is determined by its ID. -/
theorem eq_of_id {subs : List Subscriber} (hnodup : (subs.map Subscriber.id).Nodup)
    {d e : Subscriber} (hd : d ∈ subs) (he : e ∈ subs) (h : d.id = e.id) : d = e :=
  List.inj_on_of_nodup_map hnodup hd he h

/-- With distinct IDs a write changes the record of one ID and no other. -/
theorem SubRef.Into.write_eq_map {r : SubRef} {subs : List Subscriber} (h : r.Into subs)
    (hnodup : (subs.map Subscriber.id).Nodup) (x : Subscriber) :
    r.write x = subs.map (fun d => if d.id = r.sub.id then x else d) := by
  rw [h, List.map_append, List.map_cons] at hnodup
  obtain ⟨-, hnodup, hdisj⟩ := List.nodup_append.mp hnodup
  have hbehind := (List.nodup_cons.mp hnodup).1
  have hkeep {l : List Subscriber} (hl : r.sub.id ∉ l.map Subscriber.id) :
      l.map (fun d => if d.id = r.sub.id then x else d) = l := by
    conv_rhs => rw [← List.map_id l]
    apply List.map_congr_left
    intro d hd
    have hne : d.id ≠ r.sub.id := fun he => hl (he ▸ List.mem_map_of_mem hd)
    exact if_neg hne
  have hbefore : r.sub.id ∉ r.before.map Subscriber.id :=
    fun hmem => hdisj _ hmem _ List.mem_cons_self rfl
  rw [h, SubRef.write, List.map_append, List.map_cons, if_pos rfl, hkeep hbefore, hkeep hbehind]

/-- Such a write is seen in the record of that ID only. -/
theorem SubRef.Into.mem_write_cases {r : SubRef} {subs : List Subscriber} (h : r.Into subs)
    (hnodup : (subs.map Subscriber.id).Nodup) {x d : Subscriber} (hd : d ∈ r.write x) :
    d = x ∨ (d ∈ subs ∧ d.id ≠ r.sub.id) := by
  rw [h.write_eq_map hnodup] at hd
  obtain ⟨e, he, rfl⟩ := List.mem_map.mp hd
  by_cases hsame : e.id = r.sub.id
  · exact .inl (if_pos hsame)
  · rw [if_neg hsame]
    exact .inr ⟨he, hsame⟩

/-- A write through a pointer to the record of an ID changes the record of that ID. -/
theorem SubRef.Into.write_eq_map_of_id {r : SubRef} {subs : List Subscriber} (hinto : r.Into subs)
    (hids : (subs.map Subscriber.id).Nodup) {x : Bytes} (hid : r.sub.id.val = x)
    (g : Subscriber → Subscriber) :
    r.write (g r.sub) = subs.map (fun d => if d.id.val = x then g d else d) := by
  rw [hinto.write_eq_map hids]
  apply List.map_congr_left
  intro d hd
  by_cases hsame : d.id = r.sub.id
  · rw [if_pos hsame, if_pos (hsame ▸ hid), eq_of_id hids hd hinto.mem hsame]
  · rw [if_neg hsame, if_neg (fun he => hsame (Subtype.ext (he.trans hid.symm)))]

/-- The first record with the descriptor. -/
def getSubscriberByFd : List Subscriber → ℕ → Option SubRef
  | [], _ => none
  | sub :: subs, fd =>
    if sub.fd = fd then some ⟨[], sub, subs⟩
    else (getSubscriberByFd subs fd).map (fun r => { r with before := sub :: r.before })

theorem getSubscriberByFd_eq_none {subs : List Subscriber} {fd : ℕ} :
    getSubscriberByFd subs fd = none ↔ ∀ r ∈ subs, r.fd ≠ fd := by
  induction subs with
  | nil => simp [getSubscriberByFd]
  | cons sub subs ih =>
    by_cases h : sub.fd = fd
    · simp [getSubscriberByFd, h]
    · simp [getSubscriberByFd, h, ih]

theorem getSubscriberByFd_eq_some {subs : List Subscriber} {fd : ℕ} {r : SubRef} :
    getSubscriberByFd subs fd = some r ↔
      r.Into subs ∧ r.sub.fd = fd ∧ ∀ d ∈ r.before, d.fd ≠ fd := by
  obtain ⟨before, sub', behind⟩ := r
  simp only [SubRef.Into]
  induction subs generalizing before with
  | nil => simp [getSubscriberByFd]
  | cons sub subs ih =>
    rw [getSubscriberByFd]
    by_cases h : sub.fd = fd
    · rw [if_pos h]
      constructor
      · intro he
        cases he
        exact ⟨rfl, h, by simp⟩
      · rintro ⟨hsubs, _, hb⟩
        cases before with
        | nil =>
          cases hsubs
          rfl
        | cons d before =>
          cases hsubs
          exact absurd h (hb _ List.mem_cons_self)
    · rw [if_neg h]
      constructor
      · intro he
        obtain ⟨⟨b, s, a⟩, hr, hrb⟩ := Option.map_eq_some_iff.mp he
        cases hrb
        obtain ⟨hsubs, hfd, hb⟩ := (ih b).mp hr
        refine ⟨congrArg (sub :: ·) hsubs, hfd, ?_⟩
        intro d hd
        rcases List.mem_cons.mp hd with rfl | hd
        · exact h
        · exact hb d hd
      · rintro ⟨hsubs, hfd, hb⟩
        cases before with
        | nil =>
          cases hsubs
          exact absurd hfd h
        | cons d before =>
          cases hsubs
          rw [(ih before).mpr ⟨rfl, hfd, fun d hd => hb d (List.mem_cons_of_mem _ hd)⟩]
          rfl

/-- The record that is found, without its place. -/
theorem map_sub_getSubscriberByFd (subs : List Subscriber) (fd : ℕ) :
    (getSubscriberByFd subs fd).map SubRef.sub = subs.find? (fun d => d.fd = fd) := by
  induction subs with
  | nil => rfl
  | cons sub subs ih =>
    rw [getSubscriberByFd, List.find?_cons, ← ih]
    by_cases h : sub.fd = fd
    · rw [if_pos h, decide_eq_true h]
      rfl
    · rw [if_neg h, decide_eq_false h, Option.map_map]
      rfl

/-- A write that keeps the descriptor leaves what is found by the others. -/
theorem SubRef.Into.map_sub_write {r : SubRef} {subs : List Subscriber} (h : r.Into subs)
    {x : Subscriber} (hx : x.fd = r.sub.fd) {fd : ℕ} (hne : r.sub.fd ≠ fd) :
    (getSubscriberByFd (r.write x) fd).map SubRef.sub =
      (getSubscriberByFd subs fd).map SubRef.sub := by
  have hne' : x.fd ≠ fd := hx ▸ hne
  rw [map_sub_getSubscriberByFd, map_sub_getSubscriberByFd, h, SubRef.write, List.find?_append,
    List.find?_append, List.find?_cons_of_neg (by simpa using hne'),
    List.find?_cons_of_neg (by simpa using hne)]

/-- How the loop over the vector ends for a received ID. -/
inductive Admission
  | resumed (subs : List Subscriber)
  | alreadyConnected
  | unknown

def admission (sockfd : ℕ) (recvId : Bytes) : List Subscriber → Admission
  | [] => .unknown
  | sub :: subs =>
    if sub.id.val = recvId ∧ ¬ sub.online then
      .resumed ({ sub with fd := sockfd, online := true } :: subs)
    else if sub.id.val = recvId ∧ sub.online then .alreadyConnected
    else match admission sockfd recvId subs with
      | .resumed subs' => .resumed (sub :: subs')
      | .alreadyConnected => .alreadyConnected
      | .unknown => .unknown

/-- The record of an ID: the first one with it. -/
structure RecordOf (subs : List Subscriber) (recvId : Bytes) (r : SubRef) : Prop where
  into : r.Into subs
  id : r.sub.id.val = recvId
  first : ∀ d ∈ r.before, d.id.val ≠ recvId

/-- The records a scan passes before the record of the ID. -/
def recordsBefore (subs : List Subscriber) (x : Bytes) : List Subscriber :=
  subs.takeWhile (fun d => d.id.val ≠ x)

theorem RecordOf.before_eq {subs : List Subscriber} {x : Bytes} {r : SubRef}
    (h : RecordOf subs x r) : recordsBefore subs x = r.before := by
  rw [recordsBefore, h.into, List.takeWhile_append_of_pos (by simpa using h.first),
    List.takeWhile_cons_of_neg (by simpa using h.id), List.append_nil]

theorem RecordOf.eq {subs : List Subscriber} {x : Bytes} {r r' : SubRef}
    (h : RecordOf subs x r) (h' : RecordOf subs x r') : r = r' := by
  have hinto := h.into.symm.trans h'.into
  have hbefore : r.before = r'.before := h.before_eq.symm.trans h'.before_eq
  rw [hbefore] at hinto
  obtain ⟨hsub, hbehind⟩ := List.cons.inj (List.append_cancel_left hinto)
  obtain ⟨before, sub, behind⟩ := r
  obtain ⟨before', sub', behind'⟩ := r'
  cases hbefore
  cases hsub
  cases hbehind
  rfl

theorem recordsBefore_of_forall {subs : List Subscriber} {x : Bytes}
    (h : ∀ d ∈ subs, d.id.val ≠ x) : recordsBefore subs x = subs := by
  rw [recordsBefore, List.takeWhile_eq_self_iff]
  simpa using h

theorem recordsBefore_map {g : Subscriber → Subscriber} (hg : ∀ d, (g d).id = d.id)
    (subs : List Subscriber) (x : Bytes) :
    recordsBefore (subs.map g) x = (recordsBefore subs x).map g := by
  rw [recordsBefore, List.takeWhile_map, recordsBefore]
  simp only [Function.comp_def, hg]

/-- The loop acts on the record of the ID when there is one. -/
theorem admission_cases (sockfd : ℕ) (recvId : Bytes) (subs : List Subscriber) :
    (∃ r, RecordOf subs recvId r ∧ r.sub.online = false ∧ admission sockfd recvId subs =
      .resumed (r.write { r.sub with fd := sockfd, online := true })) ∨
    (∃ r, RecordOf subs recvId r ∧ r.sub.online = true ∧
      admission sockfd recvId subs = .alreadyConnected) ∨
    ((∀ d ∈ subs, d.id.val ≠ recvId) ∧ admission sockfd recvId subs = .unknown) := by
  induction subs with
  | nil => exact .inr (.inr ⟨by simp, rfl⟩)
  | cons sub subs ih =>
    by_cases hid : sub.id.val = recvId
    · cases hon : sub.online with
      | false =>
        left
        exact ⟨⟨[], sub, subs⟩, ⟨rfl, hid, by simp⟩, hon, by simp [admission, hid, hon, SubRef.write]⟩
      | true =>
        right
        left
        exact ⟨⟨[], sub, subs⟩, ⟨rfl, hid, by simp⟩, hon, by simp [admission, hid, hon]⟩
    · have hext {r : SubRef} (h : RecordOf subs recvId r) :
          RecordOf (sub :: subs) recvId { r with before := sub :: r.before } := by
        refine ⟨congrArg (sub :: ·) h.into, h.id, ?_⟩
        intro d hd
        rcases List.mem_cons.mp hd with rfl | hd
        · exact hid
        · exact h.first d hd
      rcases ih with ⟨r, hr, hon, ha⟩ | ⟨r, hr, hon, ha⟩ | ⟨hnone, ha⟩
      · left
        exact ⟨_, hext hr, hon, by simp [admission, hid, ha, SubRef.write]⟩
      · right
        left
        exact ⟨_, hext hr, hon, by simp [admission, hid, ha]⟩
      · right
        right
        refine ⟨?_, by simp [admission, hid, ha]⟩
        intro d hd
        rcases List.mem_cons.mp hd with rfl | hd
        · exact hid
        · exact hnone d hd

/-- No record in front of the record of the ID stores the descriptor. -/
def Unshadowed (subs : List Subscriber) (x : Bytes) (fd : ℕ) : Prop :=
  ∀ d ∈ recordsBefore subs x, d.fd ≠ fd

instance (subs : List Subscriber) (x : Bytes) (fd : ℕ) : Decidable (Unshadowed subs x fd) := by
  unfold Unshadowed; infer_instance

private theorem unshadowed_iff {subs : List Subscriber} {x : Bytes} {fd : ℕ} :
    Unshadowed subs x fd ↔
    ∀ q ∈ (subs.map (fun d => (d.id.val, d.fd))).takeWhile (·.1 ≠ x), q.2 ≠ fd := by
  rw [List.takeWhile_map]
  simp [Unshadowed, recordsBefore, Function.comp_def]

/-- What stands in the way depends on the IDs and the descriptors only. -/
theorem SubRef.Into.unshadowed_write {r : SubRef} {subs : List Subscriber} (h : r.Into subs)
    {d : Subscriber} (hid : d.id = r.sub.id) (hfd : d.fd = r.sub.fd) (x : Bytes) (fd : ℕ) :
    Unshadowed (r.write d) x fd ↔ Unshadowed subs x fd := by
  rw [unshadowed_iff, unshadowed_iff, h, SubRef.write]
  simp only [List.map_append, List.map_cons, hid, hfd]

/-- The lookup by descriptor meets the lookup by ID exactly when nothing is in the way. -/
theorem getSubscriberByFd_id_iff {subs : List Subscriber} {rc : Subscriber} {r : SubRef}
    (hnodup : (subs.map Subscriber.id).Nodup) (hrc : rc ∈ subs)
    (h : getSubscriberByFd subs rc.fd = some r) :
    r.sub.id = rc.id ↔ Unshadowed subs rc.id.val rc.fd := by
  obtain ⟨hinto, hfd, hfirst⟩ := getSubscriberByFd_eq_some.mp h
  have hids := hnodup
  rw [hinto, List.map_append, List.map_cons] at hids
  have hdisj := (List.nodup_append.mp hids).2.2
  constructor
  · intro hid
    have hrecord : RecordOf subs rc.id.val r := by
      refine ⟨hinto, congrArg Subtype.val hid, ?_⟩
      intro d hd he
      exact hdisj _ (List.mem_map_of_mem hd) _ List.mem_cons_self (Subtype.ext (he.trans
        (congrArg Subtype.val hid).symm))
    rw [Unshadowed, hrecord.before_eq]
    exact hfirst
  · intro hclear
    by_contra hne
    -- the found record and those before it have other IDs, so it shadows the record
    have hmem : r.sub ∈ recordsBefore subs rc.id.val := by
      have hbefore : ∀ d ∈ r.before, d.id.val ≠ rc.id.val := by
        intro d hd he
        have hsame : d = rc := eq_of_id hnodup (by rw [hinto]; simp [hd]) hrc (Subtype.ext he)
        exact hfirst d hd (hsame ▸ rfl)
      rw [recordsBefore, hinto, List.takeWhile_append_of_pos (by simpa using hbefore),
        List.takeWhile_cons_of_pos (by simpa using fun he => hne (Subtype.ext he))]
      simp
    exact hclear _ hmem hfd

end MessageBroker.SubscriberRecords
