import Briefs.Replay.Pool
import Briefs.Btree.Crash
import Briefs.Dir.Links
import Briefs.Dir.Readdir
import Briefs.Dir.Rollback
import Briefs.Trie.Empty
import Briefs.Xattr.Map
import Briefs.File.Tail
import Briefs.Alloc.Trim
import Briefs.File.Append
import Briefs.File.Flat
import Briefs.Dir.Create
import Briefs.Journal.Order
import Briefs.Journal.Backlog
import Briefs.Replay.Nlinks
import Briefs.File.Blocks
import Briefs.Replay.Xattrs
import Briefs.File.Falloc
import Briefs.File.Contents
import Briefs.Replay.Lap
import Briefs.Replay.Reads
import Briefs.Trie.Canon
import Briefs.File.Bounds
import Briefs.Xattr.Cleanup
import Briefs.Trie.Lifecycle
import Briefs.Trie.Guards
import Briefs.Trie.Seek
import Briefs.Trie.Halt
import Briefs.Journal.Durable
import Briefs.Inode.Table
import Briefs.Btree.Image
import Briefs.Inode.Icache
import Briefs.Btree.Wings
import Briefs.Replay.Inodes
import Briefs.Dir.Bridge
import Briefs.Xattr.Agree
