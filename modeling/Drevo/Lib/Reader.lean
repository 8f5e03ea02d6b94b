import Mathlib

/-! Readers: functions that take a value from the front of a list, or say why they cannot. A reader is local when
what it takes depends on nothing behind it, and when it only ever asks for more of what it would take. -/
namespace Lib

/-- What is read from the front, with the rest. -/
abbrev Reader (B E α : Type*) := List B → Except E (α × List B)

namespace Reader

variable {B E α β : Type*} (eof : E)

/-- The reader takes exactly this and gives `x`, and of every proper beginning of it says that there is more to come. -/
structure Takes (r : Reader B E α) (used : List B) (x : α) : Prop where
  all : ∀ t, r (used ++ t) = .ok (x,t)
  short : ∀ p, p <+: used → p ≠ used → r p = .error eof

/-- Of every input it takes a beginning, or refuses it whatever follows, or asks for more. -/
def Local (r : Reader B E α) : Prop :=
  ∀ input, (∃ used rest x, input = used ++ rest ∧ Takes eof r used x) ∨ (∃ e, e ≠ eof ∧ ∀ t, r (input ++ t) = .error e) ∨
    r input = .error eof

variable {eof}

/-- One reader, and another on what it leaves. -/
def bind (r : Reader B E α) (f : α → Reader B E β) : Reader B E β := fun input =>
  match r input with
  | .error e => .error e
  | .ok (x,rest) => f x rest

theorem bind_ok {r : Reader B E α} {input rest : List B} {x : α} (h : r input = .ok (x,rest)) (f : α → Reader B E β) :
    r.bind f input = f x rest := by
  rw [bind,h]

theorem bind_error {r : Reader B E α} {input : List B} {e : E} (h : r input = .error e) (f : α → Reader B E β) :
    r.bind f input = .error e := by
  rw [bind,h]

theorem Takes.pure (x : α) : Takes eof (fun input : List B => .ok (x,input)) [] x where
  all _ := rfl
  short _ hp hne := absurd (List.prefix_nil.mp hp) hne

theorem Takes.bind {r : Reader B E α} {f : α → Reader B E β} {u v : List B} {x : α} {y : β} (hr : Takes eof r u x)
    (hf : Takes eof (f x) v y) : Takes eof (r.bind f) (u ++ v) y where
  all t := by
    rw [List.append_assoc,bind_ok (hr.all (v ++ t)),hf.all t]
  short p hp hne := by
    obtain hpu | ⟨q,rfl⟩ : p <+: u ∨ u <+: p := List.prefix_or_prefix_of_prefix hp (List.prefix_append u v)
    · by_cases heq : p = u
      · have htake : r p = .ok (x,[]) := by
          have h := hr.all []
          rwa [List.append_nil,← heq] at h
        rw [bind_ok htake]
        refine hf.short [] List.nil_prefix (fun hv => hne ?_)
        rw [← hv,heq,List.append_nil]
      · exact bind_error (hr.short p hpu heq) f
    · rw [bind_ok (hr.all q)]
      refine hf.short q ((List.prefix_append_right_inj u).mp hp) (fun hq => hne ?_)
      rw [hq]

namespace Local

theorem pure (x : α) : Local eof (fun input : List B => .ok (x,input)) :=
  fun input => .inl ⟨[],input,x,rfl,Takes.pure x⟩

theorem fail {e : E} (h : e ≠ eof) : Local eof (fun _ => .error e : Reader B E α) :=
  fun _ => .inr (.inl ⟨e,h,fun _ => rfl⟩)

theorem empty : Local eof (fun _ => .error eof : Reader B E α) := fun _ => .inr (.inr rfl)

theorem bind {r : Reader B E α} {f : α → Reader B E β} (hr : Local eof r) (hf : ∀ x, Local eof (f x)) : Local eof (r.bind f) := by
  intro input
  obtain ⟨used,rest,x,rfl,htake⟩ | ⟨e,he,hfail⟩ | heof := hr input
  · obtain ⟨used',rest',y,rfl,htake'⟩ | ⟨e,he,hfail⟩ | heof := hf x rest
    · exact .inl ⟨used ++ used',rest',y,(List.append_assoc ..).symm,htake.bind htake'⟩
    · refine .inr (.inl ⟨e,he,fun t => ?_⟩)
      rw [List.append_assoc,bind_ok (htake.all (rest ++ t)),hfail t]
    · refine .inr (.inr ?_)
      rw [bind_ok (htake.all rest),heof]
  · exact .inr (.inl ⟨e,he,fun t => bind_error (hfail t) f⟩)
  · exact .inr (.inr (bind_error heof f))

theorem of_bind {r : Reader B E α} {f : α → Reader B E β} {s : Reader B E β} (hr : Local eof r) (hf : ∀ x, Local eof (f x))
    (hok : ∀ input x rest, r input = .ok (x,rest) → s input = f x rest)
    (herror : ∀ input e, r input = .error e → s input = .error e) : Local eof s := by
  have heq : s = r.bind f := by
    funext input
    cases h : r input with
    | error e => rw [herror input e h,bind_error h]
    | ok p => rw [hok input p.1 p.2 h,bind_ok h]
  rw [heq]
  exact hr.bind hf

theorem ok {r : Reader B E α} (h : Local eof r) {input rest : List B} {x : α} (hr : r input = .ok (x,rest)) :
    ∃ used, input = used ++ rest ∧ Takes eof r used x := by
  obtain ⟨used,rest',y,rfl,htake⟩ | ⟨e,-,hfail⟩ | heof := h input
  · obtain ⟨rfl,rfl⟩ := Prod.mk.inj (Except.ok.inj ((htake.all rest').symm.trans hr))
    exact ⟨used,rfl,htake⟩
  · have h := hfail []
    rw [List.append_nil,hr] at h
    cases h
  · rw [heof] at hr
    cases hr

theorem refused {r : Reader B E α} (h : Local eof r) {input : List B} {e : E} (hr : r input = .error e) (he : e ≠ eof) (t : List B) :
    r (input ++ t) = .error e := by
  obtain ⟨used,rest,y,rfl,htake⟩ | ⟨e',-,hfail⟩ | heof := h input
  · rw [htake.all rest] at hr
    cases hr
  · have h := hfail []
    rw [List.append_nil,hr] at h
    obtain rfl := Except.error.inj h
    exact hfail t
  · rw [hr] at heof
    exact absurd (Except.error.inj heof) he

theorem first {r : Reader B E B} (hnil : r [] = .error eof) (hcons : ∀ b rest, r (b :: rest) = .ok (b,rest)) : Local eof r := by
  intro input
  cases input with
  | nil => exact .inr (.inr hnil)
  | cons b rest =>
    refine .inl ⟨[b],rest,b,rfl,fun t => hcons b t,fun p hp hne => ?_⟩
    cases p with
    | nil => exact hnil
    | cons c p =>
      obtain ⟨rfl,hp'⟩ := List.cons_prefix_cons.mp hp
      obtain rfl := List.prefix_nil.mp hp'
      exact absurd rfl hne

theorem take (n : ℕ) : Local eof (fun input : List B => if input.length < n then .error eof else .ok (input.take n,input.drop n)) := by
  intro input
  by_cases hn : input.length < n
  · exact .inr (.inr (if_pos hn))
  · refine .inl ⟨input.take n,input.drop n,input.take n,(List.take_append_drop n input).symm,fun t => ?_,fun p hp hne => ?_⟩
    · have hlen : (input.take n).length = n := by
        rw [List.length_take]
        omega
      rw [if_neg (by rw [List.length_append,hlen]; omega),List.take_append_of_le_length (by omega),
        List.drop_append_of_le_length (by omega),List.take_of_length_le (by omega),List.drop_of_length_le (by omega)]
      rfl
    · have hlt : p.length < n := by
        have hle := hp.length_le
        rw [List.length_take] at hle
        have hp' : p.length ≠ (input.take n).length := fun h => hne (hp.eq_of_length h)
        rw [List.length_take] at hp'
        omega
      exact if_pos hlt

end Local
end Reader
end Lib
