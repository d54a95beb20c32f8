/-
# System V message queues

A queue has the key it was made for and its messages, oldest first, each with its type.
`msgget` finds the queue of a key or makes one, `rmid` is `msgctl` with `IPC_RMID`, `msgsnd`
appends a message, and `msgrcv` takes the first message of a type, whatever is ahead of it.

What the kernel decides is an argument: whether it refuses a `msgget`, and the identifier of a
new queue, which is any number that is not in use.  So identifiers may come back once their
queue is gone.  `msgsnd` waits for room and so does not fail for want of it.
-/
import Mathlib

namespace Ofpagent.Lib

/-! ## 1. Queues -/

/-- A message queue. -/
structure Msgq (β : Type*) where
  key : ℤ
  msgs : List (ℤ × β)

/-- The queues there are, by identifier. -/
abbrev Msgqs (β : Type*) := AList fun _ : ℤ => Msgq β

variable {β : Type*}

namespace Msgqs

/-- The queue of a key.  `IPC_PRIVATE`, which is 0, is the key of none. -/
def withKey (k : Msgqs β) (key : ℤ) : Option ℤ :=
  if key = 0 then none else (k.entries.find? fun e => e.2.key == key).map Sigma.fst

/-- A new queue.  Without a grant, or with one that no kernel gives, there is none. -/
def create (k : Msgqs β) (key : ℤ) (grant : Option ℤ) : ℤ × Msgqs β :=
  match grant with
  | none => (-1, k)
  | some id => if 0 ≤ id ∧ id ∉ k then (id, k.insert id ⟨key, []⟩) else (-1, k)

/-- `msgget` with `IPC_CREAT`, and with `IPC_EXCL` when `excl`. -/
def msgget (k : Msgqs β) (key : ℤ) (excl : Bool) (grant : Option ℤ) : ℤ × Msgqs β :=
  match k.withKey key with
  | none => k.create key grant
  | some id => if excl || grant.isNone then (-1, k) else (id, k)

/-- `msgctl` with `IPC_RMID`. -/
def rmid (k : Msgqs β) (id : ℤ) : Msgqs β := if 0 ≤ id then k.erase id else k

/-- `msgsnd`; `none` is an error. -/
def msgsnd (k : Msgqs β) (id mtype : ℤ) (body : β) : Option (Msgqs β) :=
  (k.lookup id).bind fun q =>
    if 0 < mtype then some (k.insert id { q with msgs := q.msgs ++ [(mtype, body)] }) else none

/-- `msgrcv` for a positive type; `none` where the caller has to wait. -/
def msgrcv (k : Msgqs β) (id mtype : ℤ) : Option (β × Msgqs β) :=
  (k.lookup id).bind fun q =>
    (q.msgs.find? fun m => m.1 == mtype).map fun m =>
      (m.2, k.insert id { q with msgs := q.msgs.eraseP fun m => m.1 == mtype })

/-- The key of a queue, if there is the queue. -/
def keyOf (k : Msgqs β) (id : ℤ) : Option ℤ := (k.lookup id).map Msgq.key

/-! ## 2. What `msgget` and `rmid` leave alone -/

theorem withKey_eq_some {k : Msgqs β} {key id : ℤ} (h : k.withKey key = some id) :
    ∃ q, k.lookup id = some q ∧ q.key = key := by
  unfold withKey at h
  split_ifs at h with h0
  obtain ⟨e, he, rfl⟩ := Option.map_eq_some_iff.mp h
  have hkey : e.2.key = key := by simpa using List.find?_some he
  exact ⟨e.2, AList.mem_lookup_iff.mpr (List.mem_of_find?_eq_some he), hkey⟩

/-- A `create` that succeeds gives an identifier that was free. -/
theorem create_cases (k : Msgqs β) (key : ℤ) (grant : Option ℤ) :
    k.create key grant = (-1, k) ∨
      ∃ id, 0 ≤ id ∧ id ∉ k ∧ k.create key grant = (id, k.insert id ⟨key, []⟩) := by
  cases grant with
  | none => exact .inl rfl
  | some id =>
    by_cases h : 0 ≤ id ∧ id ∉ k
    · exact .inr ⟨id, h.1, h.2, if_pos h⟩
    · exact .inl (if_neg h)

/-- **The three ways a `msgget` ends**: an error, a new queue, or the queue of the key. -/
theorem msgget_cases (k : Msgqs β) (key : ℤ) (excl : Bool) (grant : Option ℤ) :
    k.msgget key excl grant = (-1, k) ∨
      (∃ id, 0 ≤ id ∧ id ∉ k ∧ k.msgget key excl grant = (id, k.insert id ⟨key, []⟩)) ∨
      (∃ id, excl = false ∧ k.withKey key = some id ∧ k.msgget key excl grant = (id, k)) := by
  unfold msgget
  cases hw : k.withKey key with
  | none =>
    rcases k.create_cases key grant with h | h
    · exact .inl h
    · exact .inr (.inl h)
  | some id =>
    cases excl with
    | true => exact .inl rfl
    | false =>
      cases grant with
      | none => exact .inl rfl
      | some g => exact .inr (.inr ⟨id, rfl, rfl, rfl⟩)

/-- An exclusive `msgget` fails where the key has a queue, -/
theorem msgget_excl_of_withKey {k : Msgqs β} {key id : ℤ} (h : k.withKey key = some id)
    (grant : Option ℤ) : k.msgget key true grant = (-1, k) := by
  rw [msgget, h]
  rfl

/-- and one that forces gives that queue or fails. -/
theorem msgget_force_of_withKey {k : Msgqs β} {key id : ℤ} (h : k.withKey key = some id)
    (grant : Option ℤ) :
    k.msgget key false grant = (-1, k) ∨ k.msgget key false grant = (id, k) := by
  rw [msgget, h]
  cases grant with
  | none => exact .inl rfl
  | some g => exact .inr rfl

/-- An exclusive `msgget` that fails has done nothing. -/
theorem msgget_excl_of_neg {k : Msgqs β} {key : ℤ} {grant : Option ℤ}
    (h : (k.msgget key true grant).1 < 0) : k.msgget key true grant = (-1, k) := by
  rcases k.msgget_cases key true grant with h' | ⟨id, h0, -, h'⟩ | ⟨id, hx, -, -⟩
  · exact h'
  · rw [h'] at h
    exact absurd h0 (not_le.mpr h)
  · exact Bool.noConfusion hx

theorem lookup_rmid_ne (k : Msgqs β) {id b : ℤ} (h : b ≠ id) :
    (k.rmid id).lookup b = k.lookup b := by
  unfold rmid
  split_ifs
  · exact AList.lookup_erase_ne h
  · rfl

/-- `msgget` keeps every queue there is. -/
theorem lookup_msgget {k : Msgqs β} {key : ℤ} {excl : Bool} {grant : Option ℤ} {b : ℤ}
    {q : Msgq β} (hb : k.lookup b = some q) :
    (k.msgget key excl grant).2.lookup b = some q := by
  rcases k.msgget_cases key excl grant with h | ⟨id, -, hid, h⟩ | ⟨id, -, -, h⟩
  · rw [h, hb]
  · have hne : b ≠ id := by
      rintro rfl
      exact hid (AList.lookup_isSome.mp (by simp [hb]))
    rw [h, ← hb]
    exact AList.lookup_insert_ne hne
  · rw [h, hb]

/-- An exclusive `msgget` that succeeds has made the queue. -/
theorem lookup_msgget_excl {k : Msgqs β} {key : ℤ} {grant : Option ℤ}
    (h : 0 ≤ (k.msgget key true grant).1) :
    (k.msgget key true grant).2.lookup (k.msgget key true grant).1 = some ⟨key, []⟩ := by
  rcases k.msgget_cases key true grant with h' | ⟨id, -, -, h'⟩ | ⟨id, hx, -, -⟩
  · rw [h'] at h
    exact absurd (show (0 : ℤ) ≤ -1 from h) (by decide)
  · rw [h']
    exact AList.lookup_insert _
  · exact Bool.noConfusion hx

/-! ## 3. Messages -/

/-- `msgsnd` to a queue that is there, under a positive type. -/
theorem msgsnd_eq {k : Msgqs β} {id mtype : ℤ} {q : Msgq β} (body : β) (hq : k.lookup id = some q)
    (hpos : 0 < mtype) :
    k.msgsnd id mtype body = some (k.insert id { q with msgs := q.msgs ++ [(mtype, body)] }) := by
  rw [msgsnd, hq, Option.bind_some, if_pos hpos]

/-- What `msgsnd` has done when it succeeds. -/
theorem msgsnd_eq_some {k k' : Msgqs β} {id mtype : ℤ} {body : β}
    (h : k.msgsnd id mtype body = some k') :
    0 < mtype ∧ ∃ q, k.lookup id = some q ∧
      k' = k.insert id { q with msgs := q.msgs ++ [(mtype, body)] } := by
  obtain ⟨q, hq, h⟩ := Option.bind_eq_some_iff.mp h
  split_ifs at h with hpos
  exact ⟨hpos, q, hq, (Option.some.inj h).symm⟩

/-- **What `msgrcv` takes**: the first message of the type; the others stay in order. -/
theorem msgrcv_eq_some {k k' : Msgqs β} {id mtype : ℤ} {body : β}
    (h : k.msgrcv id mtype = some (body, k')) :
    ∃ q as bs, k.lookup id = some q ∧ q.msgs = as ++ (mtype, body) :: bs ∧
      (∀ x ∈ as, x.1 ≠ mtype) ∧ k' = k.insert id { q with msgs := as ++ bs } := by
  obtain ⟨q, hq, h⟩ := Option.bind_eq_some_iff.mp h
  obtain ⟨m, hm, h⟩ := Option.map_eq_some_iff.mp h
  obtain ⟨hpm, as, bs, hl, has⟩ := List.find?_eq_some_iff_append.mp hm
  obtain ⟨rfl, rfl⟩ := Prod.mk.inj h
  have hmt : m.1 = mtype := by simpa using hpm
  have hne : ∀ x ∈ as, x.1 ≠ mtype := by
    intro x hx
    simpa using has x hx
  have herase : (q.msgs.eraseP fun m => m.1 == mtype) = as ++ bs := by
    rw [hl, List.eraseP_append_right _ (by simpa using hne),
      List.eraseP_cons_of_pos (p := fun m : ℤ × β => m.1 == mtype) hpm]
  refine ⟨q, as, bs, hq, ?_, hne, ?_⟩
  · rw [hl, ← hmt]
  · rw [herase]

/-- A message of the type is enough for `msgrcv` not to wait. -/
theorem msgrcv_isSome {k : Msgqs β} {id : ℤ} {q : Msgq β} {x : ℤ × β} (hq : k.lookup id = some q)
    (hx : x ∈ q.msgs) : (k.msgrcv id x.1).isSome := by
  rw [msgrcv, hq, Option.bind_some, Option.isSome_map, List.find?_isSome]
  exact ⟨x, hx, beq_self_eq_true _⟩

end Msgqs

end Ofpagent.Lib
