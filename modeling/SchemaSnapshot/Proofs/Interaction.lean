import SchemaSnapshot.Transcript
import SchemaSnapshot.World

namespace SchemaSnapshot

def Http.Delivery.isAnswered : Http.Delivery → Bool
  | .noConnection _ => false
  | .answered _ => true

theorem Http.Service.isServed_eq (s : Service) (r : Request) :
    s.isServed r = (s.deliver r).1.isAnswered := by
  rw [isServed]
  cases (s.deliver r).1 with
  | noConnection e => rfl
  | answered bs => rfl

namespace Interaction

variable {α β : Type} {P : α → Prop} {Q : β → Prop} {i : Interaction α} {f : α → Interaction β}

@[simp] theorem pure_eq (a : α) : (pure a : Interaction α) = .done a := rfl

@[simp] theorem bind_eq (i : Interaction α) (f : α → Interaction β) : i >>= f = i.bind f := rfl

theorem run_bind (i : Interaction α) (f : α → Interaction β) (w : World) :
    (i.bind f).run w =
      let first := i.run w
      let second := (f first.result).run first.world
      { second with
        requests := first.requests ++ second.requests
        messages := first.messages ++ second.messages } := by
  induction i generalizing w with
  | done a => rfl
  | send r next ih => simp only [bind, run, ih, List.append_assoc]
  | save p d next ih => simp only [bind, run, ih]
  | tell ps next ih => simp only [bind, run, ih, List.cons_append]
  | record r next ih => simp only [bind, run, ih, List.cons_append]

/-- All requests of a run, each with what came back, whether it reached the service or not. -/
def exchanges (w : World) : Interaction α → List (Http.Request × Http.Delivery)
  | .done _ => []
  | .send r next =>
    let (delivery, service) := w.service.deliver r
    (r, delivery) :: (next delivery).exchanges { w with service := service }
  | .save path d next =>
    let (tree, result) := w.tree.save path.toList d
    (next result).exchanges { w with tree := tree }
  | .tell _ next => (next (.ok ())).exchanges w
  | .record _ next => next.exchanges w

theorem exchanges_bind (i : Interaction α) (f : α → Interaction β) (w : World) :
    (i.bind f).exchanges w =
      i.exchanges w ++ (f (i.run w).result).exchanges (i.run w).world := by
  induction i generalizing w with
  | done a => rfl
  | send r next ih => simp only [bind, run, exchanges, ih, List.cons_append]
  | save p d next ih => simp only [bind, run, exchanges, ih]
  | tell ps next ih => simp only [bind, run, exchanges, ih]
  | record r next ih => simp only [bind, run, exchanges, ih]

theorem requests_eq (i : Interaction α) (w : World) :
    (i.run w).requests =
      ((i.exchanges w).filter fun x => x.2.isAnswered).map Prod.fst := by
  induction i generalizing w with
  | done a => rfl
  | send r next ih =>
    simp only [run, exchanges, ih, Http.Service.isServed_eq, List.filter_cons]
    split
    · rfl
    · rfl
  | save p d next ih => exact ih _ _
  | tell ps next ih => exact ih _ w
  | record r next ih => exact ih w

/-- Whatever the network delivers, nothing is saved or told and the result is as described. -/
def Asks (P : α → Prop) : Interaction α → Prop
  | .done a => P a
  | .send _ next => ∀ d, (next d).Asks P
  | .save .. => False
  | .tell .. => False
  | .record _ next => next.Asks P

theorem Asks.bind (h : i.Asks P) (hf : ∀ a, P a → (f a).Asks Q) : (i.bind f).Asks Q := by
  induction i with
  | done a => exact hf a h
  | send r next ih =>
    intro d
    exact ih d (h d)
  | save p d next ih => exact h.elim
  | tell ps next ih => exact h.elim
  | record r next ih => exact ih h

theorem Asks.run (h : i.Asks P) (w : World) : P (i.run w).result ∧
    (i.run w).world.tree = w.tree ∧ Message.texts (i.run w).messages = [] := by
  induction i generalizing w with
  | done a => exact ⟨h, rfl, rfl⟩
  | send r next ih => exact ih _ (h _) _
  | save p d next ih => exact h.elim
  | tell ps next ih => exact h.elim
  | record r next ih => exact ih h w

theorem worldAfter_concat (w : World) (rs : List (Run α)) (r : Run α) :
    worldAfter w (rs ++ [r]) = r.world := by
  simp only [worldAfter, List.getLast?_concat]

theorem worldAfter_cons (w : World) (r : Run α) (rs : List (Run α)) :
    worldAfter w (r :: rs) = worldAfter r.world rs := by
  cases rs with
  | nil => rfl
  | cons s rs => simp only [worldAfter, List.getLast?_cons, Option.getD_some]

@[simp] theorem length_runTimes (i : Interaction α) (w : World) (n : Nat) :
    (i.runTimes w n).length = n := by
  induction n generalizing w with
  | zero => rfl
  | succ n ih => simp only [runTimes, List.length_cons, ih]

theorem runTimes_succ (i : Interaction α) (w : World) (n : Nat) :
    i.runTimes w (n + 1) =
      i.runTimes w n ++ [i.run (worldAfter w (i.runTimes w n))] := by
  induction n generalizing w with
  | zero => rfl
  | succ n ih =>
    rw [runTimes, ih]
    simp only [runTimes, List.cons_append, worldAfter_cons]

theorem take_runTimes (i : Interaction α) (w : World) (h : k ≤ n) :
    (i.runTimes w n).take k = i.runTimes w k := by
  induction n with
  | zero =>
    obtain rfl : k = 0 := by omega
    rfl
  | succ n ih =>
    by_cases hk : k = n + 1
    · rw [List.take_of_length_le (by simp [hk]), hk]
    · rw [runTimes_succ, List.take_append_of_le_length (by simp; omega), ih (by omega)]

theorem getElem?_runTimes (i : Interaction α) (w : World) (n k : Nat) :
    (i.runTimes w n)[k]? =
      if k < n then some (i.run (worldAfter w (i.runTimes w k))) else none := by
  split
  · rename_i h
    rw [← List.getElem?_take_of_lt (Nat.lt_succ_self k), take_runTimes i w h, runTimes_succ]
    simp
  · exact List.getElem?_eq_none (by simp; omega)

end Interaction

end SchemaSnapshot
