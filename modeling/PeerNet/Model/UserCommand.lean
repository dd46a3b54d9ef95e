import PeerNet.Model.InputBuffer
import PeerNet.Model.Receiver

/-
  The command line of a peer: `handle_user_input`.

  `sscanf` matches the letters of `GET` without skipping
  anything in front of them, and its two words are cut at 120
  bytes, so a longer first word goes on in the second one. At
  the end of the line before the first word it returns `EOF`,
  which is not 0. What is printed is left out.

  Main declarations:
    * `scanCommand`
    * `handleUserInput`
-/

------------------------------------------------------------
-- Command Lines
------------------------------------------------------------

namespace PeerNet

open Scanf

/- `"GET"`. -/
def getLiteral : Bytes := [71, 69, 84]

/- The width of both words. -/
abbrev wordWidth : Nat := 120

/-
  `sscanf(line, "GET %120s %120s", chunkf, outf)`: the result
  and the two strings, which are empty before the call.
-/
def scanCommand
    (line : Bytes) : Int × Bytes × Bytes :=
  match scanLiteral getLiteral line with
  | .eof => (-1, [], [])
  | .mismatch _ => (0, [], [])
  | .value _ rest =>
      match scanWordMax wordWidth rest with
      | .eof => (-1, [], [])
      | .mismatch _ => (0, [], [])
      | .value chunkf rest =>
          match scanWordMax wordWidth rest with
          | .value outf _ => (2, chunkf, outf)
          | _ => (1, chunkf, [])

/- `handle_user_input`. -/
def handleUserInput
    (env : Env)
    (line : Bytes) : Prog Unit :=
  let (result, chunkf, outf) := scanCommand line
  if result ≠ 0 then
    if 0 < outf.length then
      processUserGet env chunkf outf
    else
      pure ()
  else
    pure ()

end PeerNet
