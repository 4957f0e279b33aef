import Apg.Proof.Version
import Apg.Proof.Resolve
import Apg.Proof.ResolveSat
import Apg.Spec.Db
import Apg.Proof.Db
import Apg.Proof.Conflicts
import Apg.Proof.Files
import Apg.Proof.Commit
import Apg.Proof.Unlinks
import Apg.Proof.Portfolio
import Apg.Proof.Shared
import Apg.Proof.Agree
import Apg.Proof.Journal
import Apg.Proof.Execute
import Apg.Proof.Session
import Apg.Proof.Restore
import Apg.Proof.Removals
import Apg.Proof.Flags
import Apg.Proof.Newer
import Apg.Lib.Sweep
import Apg.Proof.Cycle
import Apg.Lib.Posix
import Apg.Spec.Install
import Apg.Spec.Root
import Apg.Proof.Root
import Apg.Proof.Install
import Apg.Proof.Rollback
import Apg.Proof.Entry
import Apg.Proof.Owners
import Apg.Proof.Queries
import Apg.Proof.Logging
import Apg.Proof.Needed
import Apg.Lib.Prune
import Apg.Proof.Scripts
import Apg.Proof.Persisted
import Apg.Lib.Runs
import Apg.Proof.Paths
import Apg.Proof.Archive
import Apg.Proof.FileLists
import Apg.Proof.Nulls
import Apg.Proof.Lookup
import Apg.Proof.Variables
import Apg.Lib.Trace
import Apg.Proof.Search
import Apg.Lib.Exclusive
import Apg.Proof.Sharing
import Apg.Lib.Undo
import Apg.Proof.Keyring
import Apg.Proof.Replay
import Apg.Proof.Closure
import Apg.Lib.Dot
import Apg.Proof.Dot
import Apg.Proof.Verify
import Apg.Lib.Chroot
import Apg.Proof.RunScript
