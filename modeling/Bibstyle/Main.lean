import Bibstyle.CommandLine.Run
/-!
# Main — the program on the files of the system
-/
namespace Bibstyle
namespace CommandLine

/-- What an error of the system means. -/
def fileFault (e : IO.Error) : FileFault :=
  match e with
  | .noFileOrDirectory _ _ _ => .notFound
  | .inappropriateType _ code _ => if code = 20 then .notDirectory else .isDirectory
  | e => .other (toString e)

/-- Access to the files of the system. -/
def systemFiles : FileAccess IO where
  read path := try return .ok (← IO.FS.readBinFile path) catch e => return .error (fileFault e)
  write path content := try return .ok (← IO.FS.writeBinFile path content) catch e => return .error (fileFault e)

end CommandLine
end Bibstyle

def main (args : List String) : IO UInt32 := do
  let reply ← Bibstyle.CommandLine.run Bibstyle.CommandLine.systemFiles args
  IO.print reply.output
  IO.eprint reply.messages
  return reply.code.toUInt32
